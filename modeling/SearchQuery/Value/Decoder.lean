import SearchQuery.Number.Integer
import SearchQuery.Value

/-!
Decoders by name, and a record of the texts that a decoder is called on.
-/

namespace SearchQuery

/-- What a decoder can yield. -/
inductive Scalar where
  | text (s : String)
  | size (bytes : Nat)
  | integer (n : Int)
deriving DecidableEq, Repr

inductive Decoder where
  /-- The text itself. -/
  | text
  /-- The size of the text in bytes. -/
  | size
  /-- The text as a 64-bit integer. -/
  | integer
  /-- The text itself unless it contains another one. -/
  | without (rejected : String)
  /-- A decoder that does not exist. -/
  | missing
deriving DecidableEq, Repr

namespace Decoder

/-- Whether one text stands somewhere in the other. -/
def occursIn (part : List Char) : List Char → Bool
  | [] => part.isEmpty
  | c :: cs => part.isPrefixOf (c :: cs) || occursIn part cs

theorem occursIn_iff {part cs : List Char} : occursIn part cs = true ↔ part <:+: cs := by
  induction cs with
  | nil => simp [occursIn]
  | cons c cs ih => simp [occursIn, ih, List.infix_cons_iff]

/-- The value of a text, or why it has none. -/
def run : Decoder → String → Except String Scalar
  | text, s => .ok (.text s)
  | size, s => .ok (.size s.utf8ByteSize)
  | integer, s => ((Integer.read 64 s).map Scalar.integer).mapError Integer.Fault.message
  | without rejected, s =>
      if occursIn rejected.toList s.toList then .error ("rejected <" ++ s ++ ">") else .ok (.text s)
  | missing, _ => .error "no such decoder"

/-- Runs a decoder and appends the text to the record of calls. -/
def traced (d : Decoder) (s : String) : ExceptT String (StateM (List String)) Scalar := do
  modify (· ++ [s])
  ExceptT.mk (pure (d.run s))

end Decoder

/-- The value of a term together with the texts that were decoded for it, in order; through the
bound of the term if `direct`. -/
def Term.tracedValue (d : Decoder) (direct : Bool) (t : Option Term) :
    Except (ValueError String) (TermValue Scalar) × List String :=
  ((if direct then boundValue d.traced t else value d.traced t).run).run []

end SearchQuery

/-!
Flags that classify a term. A present term has exactly one of the first five, and any of the
others on top.
-/

namespace SearchQuery

/-- A set of flags, one bit each. -/
structure TermFlags where
  bits : BitVec 9
deriving DecidableEq, Repr, Inhabited

namespace TermFlags

/-- No flag at all: the class of an absent term. -/
def unknown : TermFlags := ⟨0⟩

def single : TermFlags := ⟨1⟩

def phrase : TermFlags := ⟨2⟩

def regexp : TermFlags := ⟨4⟩

def range : TermFlags := ⟨8⟩

def group : TermFlags := ⟨16⟩

def wildcard : TermFlags := ⟨32⟩

def fuzzy : TermFlags := ⟨64⟩

def boost : TermFlags := ⟨128⟩

/-- A text up to one final star. -/
def leading : TermFlags := ⟨256⟩

instance : OrOp TermFlags :=
  ⟨fun a b => ⟨a.bits ||| b.bits⟩⟩

instance : AndOp TermFlags :=
  ⟨fun a b => ⟨a.bits &&& b.bits⟩⟩

/-- The flag itself if the condition holds. -/
def when (flag : TermFlags) (condition : Bool) : TermFlags :=
  if condition then flag else unknown

def isUnknown (a : TermFlags) : Bool :=
  a == unknown

/-- Every flag of `b` is in `a`, and there is at least one. -/
def contains (a b : TermFlags) : Bool :=
  b != unknown && a &&& b == b

/-- Some flag of `b` is in `a`. -/
def intersects (a b : TermFlags) : Bool :=
  a &&& b != unknown

/-- The single flags with their names, in the order in which a set is written. -/
def named : List (TermFlags × String) :=
  [(single, "SINGLE"), (phrase, "PHRASE"), (regexp, "REGEXP"), (range, "RANGE"), (group, "GROUP"),
    (wildcard, "WILDCARD"), (fuzzy, "FUZZY"), (boost, "BOOST"), (leading, "PREFIX")]

/-- The names of the flags in a set. -/
def names (a : TermFlags) : List String :=
  (named.filter fun (flag, _) => a.contains flag).map Prod.snd

/-- The text of a set of flags. -/
def render (a : TermFlags) : String :=
  if a.isUnknown then "UNKNOWN" else String.intercalate " | " a.names

/-- The flag with the given name. -/
def ofName? (s : String) : Option TermFlags :=
  if s = "UNKNOWN" then some unknown
  else (named.find? fun (_, name) => name == s).map Prod.fst

/-- The union of some flags. -/
def union (flags : List TermFlags) : TermFlags :=
  flags.foldl (· ||| ·) unknown

example : (single ||| wildcard ||| boost).render = "SINGLE | WILDCARD | BOOST" := by decide

example : (single ||| boost).contains unknown = false := by decide

end TermFlags

end SearchQuery

import DiagramText.Flowchart.Basic
import DiagramText.Keyed

/-!
# Names for nodes

A written chart names its nodes after their labels.  A naming gives every id one name; different ids get different
names, and every name is a word that is not reserved.
-/

namespace DiagramText.Flowchart

/-- Names for ids, in the order in which they were given. -/
abbrev Naming := Keyed Id Text

namespace Naming

/-- The most characters of a label that a name takes. -/
def maxLength : Nat := 20

/-- The label with an underscore for every character that cannot stand in a word. -/
def wordChars (label : Text) : Text := label.map fun c => if Text.isWordChar c then c else '_'

/-- The name that a label suggests to the node number `n`: its word characters, made into a word. -/
def base (label : Text) (n : Nat) : Text :=
  let cut := (Text.trim (· == '_') (wordChars label)).take maxLength
  let named := if cut = [] then "node_".toList ++ Text.ofNat n else cut
  let word := if (named.head?.map Char.isDigit).getD false then "n_".toList ++ named else named
  if word ∈ reserved then word ++ ['_'] else word

/-- A name and its variants, one more than `n`. -/
def variants (name : Text) (n : Nat) : List Text :=
  name :: (List.range n).map fun i => name ++ '_' :: Text.ofNat (i + 1)

/-- The first variant of a name that is not used. -/
def unused (used : List Text) (name : Text) : Text := ((variants name used.length).find? (· ∉ used)).getD name

/-- The names given so far. -/
def used (names : Naming) : List Text := names.map Prod.snd

/-- Gives the id a name after the label, unless it has one. -/
def assign (names : Naming) (id : Id) (label : Text) : Naming :=
  names.upsert id fun old => old.getD (unused names.used (base label names.length))

/-- The name of an id. -/
def name (names : Naming) (id : Id) : Text := (names.get? id).getD []

end Naming

end DiagramText.Flowchart

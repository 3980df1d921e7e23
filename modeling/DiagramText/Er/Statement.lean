import DiagramText.Er.Token
import DiagramText.Report

/-!
# Statements of entity-relationship text

The tokens are read into statements, one after the other: an entity by itself, an entity with a block of attributes, or
a relation.  A token that begins no statement is skipped.  Each function that reads gives the tokens that it leaves,
which are always the end of those that it was given.
-/

namespace DiagramText.Er

/-- What stands in the block of an entity. -/
inductive Entry where
  | column (a : Attribute)
  /-- A type that no name follows. -/
  | nameless (type : Text) (place : Place)
deriving DecidableEq, Repr

def Entry.attribute? : Entry → Option Attribute
  | column a => some a
  | nameless _ _ => none

/-- What an entity-relationship text says. -/
inductive Statement where
  /-- An entity by itself. -/
  | mention (name : Text)
  /-- An entity with its block. -/
  | block (name : Text) (entries : List Entry) (closed : Bool)
  | relation (r : Relation Text)
  /-- A relation that leads nowhere. -/
  | untargeted (place : Place)
  /-- A token that begins no statement. -/
  | skipped (kind : Text) (place : Place)
deriving DecidableEq, Repr

/-- The tokens behind line breaks and comments. -/
abbrev skipBreaks (ts : List (Token Kind)) : List (Token Kind) := skipTokens Kind.isBreak ts

/-- The markers at the head of the tokens. -/
def readKeys : List (Token Kind) → List Key × List (Token Kind)
  | ⟨.key k _, _⟩ :: ts => (k :: (readKeys ts).1, (readKeys ts).2)
  | ts => ([], ts)

theorem readKeys_suffix (ts : List (Token Kind)) : (readKeys ts).2 <:+ ts := by
  fun_induction readKeys ts with
  | case1 _ _ _ _ ih => exact ih.trans (List.suffix_cons _ _)
  | case2 ts _ => exact List.suffix_refl ts

/-- The comment at the head of the tokens. -/
def readComment : List (Token Kind) → Option Text × List (Token Kind)
  | ⟨.string s, _⟩ :: ts => (some s, ts)
  | ts => (none, ts)

theorem readComment_suffix (ts : List (Token Kind)) : (readComment ts).2 <:+ ts := by
  unfold readComment
  split
  · exact List.suffix_cons _ _
  · exact List.suffix_refl ts

/-- The attribute of this type and name, with the markers and the comment that follow. -/
def readAttribute (type name : Text) (ts : List (Token Kind)) : Attribute × List (Token Kind) :=
  let keys := readKeys ts
  let comment := readComment keys.2
  ({ name, type
     isPrimaryKey := keys.1.contains .primary
     isForeignKey := keys.1.contains .foreign
     isUnique := keys.1.contains .unique
     isNullable := !keys.1.contains .primary
     comment := comment.1 }, comment.2)

theorem readAttribute_suffix (type name : Text) (ts : List (Token Kind)) :
    (readAttribute type name ts).2 <:+ ts :=
  (readComment_suffix _).trans (readKeys_suffix ts)

/-- A block behind its opening brace: its entries, whether it is closed, and the tokens behind it. -/
structure Block where
  entries : List Entry
  closed : Bool
  rest : List (Token Kind)

/-- The block with one more entry in front. -/
def Block.cons (e : Entry) (b : Block) : Block := { b with entries := e :: b.entries }

/-- Reads a block up to its closing brace.  What is neither an attribute nor a brace is passed over. -/
def readBlock (ts : List (Token Kind)) : Block :=
  match ts with
  | [] => ⟨[], false, []⟩
  | ⟨.closeBrace, _⟩ :: ts => ⟨[], true, ts⟩
  | ⟨.word type, _⟩ :: ⟨.word name, _⟩ :: ts =>
    let read := readAttribute type name ts
    (readBlock read.2).cons (.column read.1)
  | ⟨.word type, place⟩ :: ts => (readBlock ts).cons (.nameless type place)
  | _ :: ts => readBlock ts
termination_by ts.length
decreasing_by
  all_goals simp only [List.length_cons]
  · have := (readAttribute_suffix type name ts).length_le
    omega
  · omega
  · omega

theorem readBlock_suffix (ts : List (Token Kind)) : (readBlock ts).rest <:+ ts := by
  fun_induction readBlock ts with
  | case1 => exact List.suffix_refl _
  | case2 => exact List.suffix_cons _ _
  | case3 type _ name _ ts read ih =>
    exact (ih.trans (readAttribute_suffix type name ts)).trans
      ((List.suffix_cons _ _).trans (List.suffix_cons _ _))
  | case4 _ _ _ _ ih => exact ih.trans (List.suffix_cons _ _)
  | case5 _ _ _ _ _ ih => exact ih.trans (List.suffix_cons _ _)

/-- The label of a relation: a colon and then a word or a string.  A colon without either is dropped. -/
def readLabel (ts : List (Token Kind)) : Option Text × List (Token Kind) :=
  match skipBreaks ts with
  | ⟨.colon, _⟩ :: ts =>
    match skipBreaks ts with
    | ⟨.word w, _⟩ :: ts => (some w, ts)
    | ⟨.string s, _⟩ :: ts => (some s, ts)
    | ts => (none, ts)
  | ts => (none, ts)

theorem readLabel_suffix (ts : List (Token Kind)) : (readLabel ts).2 <:+ ts := by
  unfold readLabel
  split
  · rename_i h
    have h := suffix_of_skipTokens h
    split
    · rename_i h'; exact (suffix_of_skipTokens h').trans h
    · rename_i h'; exact (suffix_of_skipTokens h').trans h
    · exact (skipTokens_suffix _ _).trans h
  · exact skipTokens_suffix _ ts

/-- Reads the statement that begins with an entity's name. -/
def readStatement (name : Text) (ts : List (Token Kind)) : Statement × List (Token Kind) :=
  match skipBreaks ts with
  | ⟨.openBrace, _⟩ :: ts =>
    let block := readBlock ts
    (.block name block.entries block.closed, block.rest)
  | ⟨.relation symbol, place⟩ :: ts =>
    match skipBreaks ts with
    | ⟨.word target, _⟩ :: ts =>
      let ends := decodeSymbol symbol
      let label := readLabel ts
      (.relation ⟨name, target, ends.1, ends.2.1, ends.2.2, label.1⟩, label.2)
    | ts => (.untargeted place, ts)
  | ts => (.mention name, ts)

theorem readStatement_suffix (name : Text) (ts : List (Token Kind)) : (readStatement name ts).2 <:+ ts := by
  unfold readStatement
  split
  · rename_i h; exact (readBlock_suffix _).trans (suffix_of_skipTokens h)
  · rename_i h
    have h := suffix_of_skipTokens h
    split
    · rename_i h'; exact (readLabel_suffix _).trans ((suffix_of_skipTokens h').trans h)
    · exact (skipTokens_suffix _ _).trans h
  · exact skipTokens_suffix _ ts

/-- The statements of a list of tokens. -/
def statements (ts : List (Token Kind)) : List Statement :=
  match ts with
  | [] => []
  | ⟨.newline, _⟩ :: ts => statements ts
  | ⟨.comment _, _⟩ :: ts => statements ts
  | ⟨.word name, _⟩ :: ts =>
    let read := readStatement name ts
    read.1 :: statements read.2
  | ⟨kind, place⟩ :: ts => .skipped kind.name place :: statements ts
termination_by ts.length
decreasing_by
  all_goals simp only [List.length_cons]
  · omega
  · omega
  · have := (readStatement_suffix name ts).length_le
    omega
  · omega

/-- The statements of a text: the header may be missing. -/
def document (ts : List (Token Kind)) : List Statement :=
  match skipBreaks ts with
  | ⟨.header, _⟩ :: ts => statements ts
  | ts => statements ts

/-! ### Faults -/

def Entry.error? : Entry → Option ParseError
  | column _ => none
  | nameless type place => some ⟨place, .attributeName type⟩

/-- The errors of a statement in a text that ends at `finish`. -/
def Statement.errors (finish : Place) : Statement → List ParseError
  | .block _ entries closed =>
    entries.filterMap Entry.error? ++ if closed then [] else [⟨finish, .openEntityBlock⟩]
  | .untargeted place => [⟨place, .relationTarget⟩]
  | _ => []

end DiagramText.Er

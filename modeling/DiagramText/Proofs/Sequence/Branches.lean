import DiagramText.Proofs.Sequence.Bracketing

/-!
# Branches

The line that begins a further branch of an alternative goes on with whatever block is innermost.  In a diagram whose
blocks are `Branched` its own block is open there (`Branched.mem_openBehind`), and it is the innermost one exactly if no
block inside it begins or ends where the branch begins (`Branched.head?_iff`): at one order blocks open before branches
begin, and end behind them.
-/

namespace DiagramText.Sequence

/-! ### Branches in a row -/

/-- A branch that ends no earlier than it begins comes before the ones behind it. -/
private theorem pairwise_chained {l : List Span} (hf : ∀ s ∈ l, s.start ≤ s.stop)
    (hc : l.IsChain fun s t => s.stop = t.start) : l.Pairwise fun s t => s.stop ≤ t.start := by
  induction l with
  | nil => exact List.Pairwise.nil
  | cons s l ih =>
    have htail := ih (fun t ht => hf t (List.mem_cons_of_mem s ht)) hc.tail
    refine List.pairwise_cons.2 ⟨?_, htail⟩
    intro u hu
    cases l with
    | nil => cases hu
    | cons t l =>
      have hst : s.stop = t.start := hc.rel
      have ht := hf t (by simp)
      rcases List.mem_cons.1 hu with rfl | hu
      · omega
      · have := List.rel_of_pairwise_cons htail hu
        omega

namespace Diagram

/-- The blocks are laminar, the branches of each follow one another, and a block inside another lies in one of its
branches; orders may be shared everywhere. -/
structure Branched (d : Diagram) : Prop where
  laminar : d.Laminar
  forward : ∀ b ∈ d.frames, ∀ s ∈ b.branches, s.start ≤ s.stop
  chained : ∀ b ∈ d.frames, b.branches.IsChain fun s t => s.stop = t.start
  held : ∀ b ∈ d.frames, ∀ c ∈ d.frames, c ≠ b → c.LiesIn b → ∃ s ∈ b.branches, s.start ≤ c.start ∧ c.stop ≤ s.stop

/-- No block inside the block begins or ends where the branch begins. -/
def Clear (d : Diagram) (b : Frame) (s : Span) : Prop :=
  ∀ c ∈ d.frames, c ≠ b → c.LiesIn b → c.start ≠ s.start ∧ c.stop ≠ s.start

instance (d : Diagram) (b : Frame) (s : Span) : Decidable (d.Clear b s) :=
  inferInstanceAs (Decidable (∀ c ∈ d.frames, c ≠ b → c.LiesIn b → c.start ≠ s.start ∧ c.stop ≠ s.start))

variable {d : Diagram} (hd : d.Branched)
include hd

/-- The branches of a block come one behind the other. -/
theorem Branched.pairwise {b : Frame} (hb : b ∈ d.frames) :
    b.branches.Pairwise fun s t => s.stop ≤ t.start :=
  pairwise_chained (hd.forward b hb) (hd.chained b hb)

/-- A further branch begins in its block. -/
theorem Branched.start_mem {b : Frame} (hb : b ∈ d.frames) {s : Span} (hs : s ∈ b.more) :
    b.start ≤ s.start ∧ s.start ≤ b.stop := by
  have hpair := hd.pairwise hb
  have hforward := hd.forward b hb
  have hfirst : b.first.stop ≤ s.start := List.rel_of_pairwise_cons hpair hs
  have hstart := hforward b.first List.mem_cons_self
  have hsb : s ∈ b.branches := List.mem_cons_of_mem _ hs
  obtain ⟨init, last, hlast⟩ : ∃ init last, b.branches = init ++ [last] :=
    List.eq_nil_or_concat' b.branches |>.resolve_left (List.cons_ne_nil _ _)
  have hstop : b.stop = last.stop := by
    rw [Frame.stop, hlast, List.getLast?_concat]
    rfl
  have hle : s.start ≤ last.stop := by
    have hforwardlast := hforward last (by rw [hlast]; simp)
    rw [hlast, List.mem_append, List.mem_singleton] at hsb
    rw [hlast, List.pairwise_append] at hpair
    rcases hsb with hinit | rfl
    · have := hpair.2.2 s hinit last (List.mem_singleton.2 rfl)
      have := hforward s (List.mem_cons_of_mem _ hs)
      omega
    · exact hforwardlast
  exact ⟨show b.first.start ≤ s.start by omega, by omega⟩

/-- A block inside another around the beginning of a branch begins or ends there. -/
private theorem Branched.touches {b c : Frame} {s : Span} (hb : b ∈ d.frames) (hs : s ∈ b.more) (hc : c ∈ d.frames)
    (hne : c ≠ b) (hin : c.LiesIn b) (hstart : c.start ≤ s.start) (hstop : s.start ≤ c.stop) :
    c.start = s.start ∨ c.stop = s.start := by
  obtain ⟨t, ht, hts, hte⟩ := hd.held b hb c hc hne hin
  have hsb : s ∈ b.branches := List.mem_cons_of_mem _ hs
  have hforward := hd.forward b hb s hsb
  by_cases hsame : t = s
  · subst hsame
    omega
  · have hsymm : Std.Symm fun s t : Span => s.stop ≤ t.start ∨ t.stop ≤ s.start := ⟨fun s t h => h.symm⟩
    have hpair : b.branches.Pairwise fun s t => s.stop ≤ t.start ∨ t.stop ≤ s.start := (hd.pairwise hb).imp Or.inl
    rcases hpair.forall ht hsb hsame with h | h
    · omega
    · omega

section

variable {before after : List Happening} {b : Frame} {s : Span} (hs : d.script = before ++ .branch b s :: after)
include hs

/-- The line of a branch stands in its own block. -/
theorem Branched.mem_openBehind : b ∈ openBehind before := by
  obtain ⟨hb, hsb⟩ : b ∈ d.frames ∧ s ∈ b.more := of_script hs
  have haround := (mem_around_iff hs rfl hb).2 (hd.start_mem hb hsb)
  rw [around, List.mem_filter, decide_eq_true_eq] at haround
  rw [(hd.laminar.nest hs).mem]
  exact ⟨haround.2.1, ((hd.laminar.mem_after_iff hs (i := .closing b) hb rfl).1 haround.2.2).1⟩

/-- The line of a branch goes on with its own block exactly if no block inside that begins or ends at its order. -/
theorem Branched.head?_iff : (openBehind before).head? = some b ↔ d.Clear b s := by
  obtain ⟨hb, hsb⟩ : b ∈ d.frames ∧ s ∈ b.more := of_script hs
  have hn := hd.laminar.nest hs
  have hmem := hd.mem_openBehind hs
  -- the blocks on the stack are those around the order of the line
  have hopen : ∀ c ∈ d.frames, c ∈ openBehind before ↔ c.start ≤ s.start ∧ s.start ≤ c.stop := by
    intro c hc
    refine Iff.trans ?_ (mem_around_iff hs rfl hc)
    rw [around, List.mem_filter, decide_eq_true_eq, hn.mem, hd.laminar.mem_after_iff hs (i := .closing c) hc rfl]
    simp [hc]
  constructor
  · intro hhead c hc hne hin
    obtain ⟨rest, hrest⟩ := List.head?_eq_some_iff.1 hhead
    have houter : c ∉ openBehind before := by
      intro hcopen
      have hnested := hn.nested
      rw [hrest, List.pairwise_cons] at hnested
      rw [hrest, List.mem_cons] at hcopen
      obtain ⟨-, hout⟩ := hnested.1 c (hcopen.resolve_left hne)
      obtain ⟨hdiff, -⟩ := hd.laminar.relate hc hb hne
      simp only [Frame.LiesIn] at hin hout
      omega
    rw [hopen c hc] at houter
    have hforward := hd.laminar.forward c hc
    omega
  · intro hclear
    cases hstack : openBehind before with
    | nil =>
      rw [hstack] at hmem
      cases hmem
    | cons c rest =>
      have hcopen : c ∈ openBehind before := by
        rw [hstack]
        exact List.mem_cons_self
      have hc : c ∈ d.frames := of_script_before hs ((hn.mem c).1 hcopen).1
      have hnested := hn.nested
      rw [hstack, List.pairwise_cons] at hnested
      rw [hstack] at hmem
      by_cases hcb : c = b
      · rw [hcb]
        rfl
      · obtain ⟨-, hin⟩ := hnested.1 b ((List.mem_cons.1 hmem).resolve_left (Ne.symm hcb))
        obtain ⟨hstart, hstop⟩ := (hopen c hc).1 hcopen
        obtain ⟨hne, hne'⟩ := hclear c hc hcb hin
        rcases hd.touches hb hsb hc hcb hin hstart hstop with h | h
        · exact absurd h hne
        · exact absurd h hne'

end

end Diagram

end DiagramText.Sequence

import DiagramText.Keyed
import Mathlib.Data.List.Induction

/-!
# Looking up keyed lists

What `get?` finds after `upsert`, and what becomes of the list itself: it stays as it is if the value under the key is
kept (`upsert_of_get?`), and a new key goes to its end (`upsert_of_not_mem`).  Elements that carry numbered keys are
found by their number (`find?_of_numbered`), and `firsts` keeps one element of every key.
-/

namespace DiagramText.Keyed

variable {κ α : Type}

@[simp] theorem keys_nil : keys ([] : Keyed κ α) = [] := rfl

@[simp] theorem keys_cons (p : κ × α) (l : Keyed κ α) : keys (p :: l) = p.1 :: keys l := rfl

variable [DecidableEq κ]

theorem get?_cons (p : κ × α) (l : Keyed κ α) (k : κ) :
    get? (p :: l) k = if p.1 = k then some p.2 else get? l k := by
  unfold get?
  rw [List.find?_cons]
  by_cases h : p.1 = k <;> simp [h]

theorem get?_eq_none_iff {l : Keyed κ α} {k : κ} : get? l k = none ↔ k ∉ keys l := by
  simp only [get?, keys, Option.map_eq_none_iff, List.find?_eq_none, List.mem_map, decide_eq_true_eq]
  constructor
  · rintro h ⟨p, hp, rfl⟩
    exact h p hp rfl
  · exact fun h p hp e => h ⟨p, hp, e⟩

theorem mem_keys_iff {l : Keyed κ α} {k : κ} : k ∈ keys l ↔ ∃ a, get? l k = some a := by
  rw [← Option.isSome_iff_exists, Option.isSome_iff_ne_none, Ne, get?_eq_none_iff, Decidable.not_not]

theorem mem_of_get? {l : Keyed κ α} {k : κ} {a : α} (h : get? l k = some a) : (k, a) ∈ l := by
  obtain ⟨p, hp, rfl⟩ := Option.map_eq_some_iff.1 h
  have hk := List.find?_some hp
  simp only [decide_eq_true_eq] at hk
  exact hk ▸ List.mem_of_find?_eq_some hp

/-- In a list without repeated keys every entry is found under its key. -/
theorem get?_of_mem {l : Keyed κ α} (hl : (keys l).Nodup) {k : κ} {a : α} (h : (k, a) ∈ l) : get? l k = some a := by
  induction l with
  | nil => cases h
  | cons p l ih =>
    rw [keys_cons, List.nodup_cons] at hl
    rw [get?_cons]
    rcases List.mem_cons.1 h with rfl | h
    · simp
    · have hne : p.1 ≠ k := fun e => hl.1 (List.mem_map.2 ⟨(k, a), h, e.symm⟩)
      rw [if_neg hne, ih hl.2 h]

/-- A list without repeated keys is its keys with the values that are found under them. -/
theorem eq_map_keys {l : Keyed κ α} (hl : (keys l).Nodup) {f : κ → α} (h : ∀ k ∈ keys l, get? l k = some (f k)) :
    l = (keys l).map fun k => (k, f k) := by
  rw [keys, List.map_map]
  refine ((List.map_congr_left ?_).trans (List.map_id l)).symm
  rintro ⟨k, a⟩ hp
  have hk : get? l k = some a := get?_of_mem hl hp
  rw [h k (List.mem_map_of_mem (f := Prod.fst) hp), Option.some.injEq] at hk
  exact Prod.ext rfl hk

/-- Looking up when the values are replaced by others. -/
theorem get?_map_value {β : Type} (g : κ → α → β) (l : Keyed κ α) (k : κ) :
    get? (l.map fun e => (e.1, g e.1 e.2)) k = (get? l k).map (g k) := by
  induction l with
  | nil => rfl
  | cons p l ih =>
    rw [List.map_cons, get?_cons, get?_cons, ih]
    by_cases h : p.1 = k
    · simp [h]
    · simp [h]

/-- Among different values, a key comes once at most if and only if each of its values is the one that is found. -/
theorem count_keys_le_one_iff [BEq κ] [LawfulBEq κ] {l : Keyed κ α} (hl : (l.map Prod.snd).Nodup) {k : κ} :
    l.keys.count k ≤ 1 ↔ ∀ a, (k, a) ∈ l → get? l k = some a := by
  induction l with
  | nil => simp
  | cons p l ih =>
    obtain ⟨j, b⟩ := p
    rw [List.map_cons, List.nodup_cons] at hl
    rw [keys_cons, get?_cons]
    by_cases hjk : j = k
    · subst hjk
      have hcount : (j :: keys l).count j ≤ 1 ↔ j ∉ keys l := by
        rw [List.count_cons_self, ← List.count_eq_zero]
        omega
      rw [hcount, if_pos rfl]
      constructor
      · intro hj a ha
        rcases List.mem_cons.1 ha with ha | ha
        · rw [(Prod.mk.inj ha).2]
        · exact absurd (List.mem_map_of_mem (f := Prod.fst) ha) hj
      · intro hfound hj
        obtain ⟨⟨_, a⟩, ha, rfl⟩ := List.mem_map.1 hj
        have hab : b = a := Option.some.inj (hfound a (List.mem_cons_of_mem _ ha))
        rw [hab] at hl
        exact hl.1 (List.mem_map_of_mem (f := Prod.snd) ha)
    · rw [List.count_cons_of_ne hjk, ih hl.2, if_neg hjk]
      have hmem : ∀ a, (k, a) ∈ (j, b) :: l ↔ (k, a) ∈ l := by
        intro a
        rw [List.mem_cons, or_iff_right]
        exact fun h => hjk (Prod.mk.inj h).1.symm
      simp only [hmem]

theorem get?_upsert (k : κ) (f : Option α → α) (l : Keyed κ α) (j : κ) :
    get? (upsert k f l) j = if j = k then some (f (get? l k)) else get? l j := by
  induction l with
  | nil =>
    rw [upsert, get?_cons]
    by_cases h : j = k
    · simp [h, get?]
    · simp [h, Ne.symm h, get?]
  | cons p l ih =>
    obtain ⟨i, a⟩ := p
    by_cases hi : i = k
    · subst hi
      by_cases h : j = i
      · simp [upsert, get?_cons, h]
      · simp [upsert, get?_cons, h, Ne.symm h]
    · by_cases h : j = k
      · subst h
        simp [upsert, get?_cons, hi, ih]
      · simp only [upsert, hi, if_false, get?_cons, ih, h]

theorem nodup_keys_upsert {k : κ} {f : Option α → α} {l : Keyed κ α} (h : (keys l).Nodup) :
    (keys (upsert k f l)).Nodup := by
  rw [keys_upsert]
  split
  · exact h
  · rename_i hk
    rw [List.nodup_append]
    refine ⟨h, by simp, ?_⟩
    rintro a ha b hb rfl
    exact hk (List.mem_singleton.1 hb ▸ ha)

/-- Nothing changes if the value under the key stays. -/
theorem upsert_of_get? {k : κ} {f : Option α → α} {l : Keyed κ α} {a : α} (h : get? l k = some a)
    (hf : f (some a) = a) : upsert k f l = l := by
  induction l with
  | nil => cases h
  | cons p l ih =>
    obtain ⟨j, b⟩ := p
    rw [get?_cons] at h
    by_cases hj : j = k
    · simp only [hj, if_true, Option.some.injEq] at h
      simp [upsert, hj, h, hf]
    · simp only [hj, if_false] at h
      simp [upsert, hj, ih h]

/-- A new key comes last. -/
theorem upsert_of_not_mem {k : κ} {f : Option α → α} {l : Keyed κ α} (h : k ∉ keys l) :
    upsert k f l = l ++ [(k, f none)] := by
  induction l with
  | nil => rfl
  | cons p l ih =>
    obtain ⟨j, b⟩ := p
    simp only [keys_cons, List.mem_cons, not_or] at h
    simp [upsert, Ne.symm h.1, ih h.2]

/-- What is put under a key that is there comes from the value that is there. -/
theorem upsert_congr {k : κ} {f g : Option α → α} {l : Keyed κ α} (h : k ∈ keys l)
    (hfg : ∀ a, f (some a) = g (some a)) : upsert k f l = upsert k g l := by
  induction l with
  | nil => cases h
  | cons p l ih =>
    obtain ⟨j, b⟩ := p
    by_cases hj : j = k
    · simp [upsert, hj, hfg]
    · have hk : k ∈ keys l := (List.mem_cons.1 h).resolve_left (Ne.symm hj)
      simp [upsert, hj, ih hk]

theorem upsert_upsert (k : κ) (f g : Option α → α) (l : Keyed κ α) :
    upsert k f (upsert k g l) = upsert k (fun old => f (some (g old))) l := by
  induction l with
  | nil => simp [upsert]
  | cons p l ih =>
    obtain ⟨j, b⟩ := p
    by_cases hj : j = k
    · simp [upsert, hj]
    · simp [upsert, hj, ih]

/-- A value that is there and another one can be changed in any order. -/
theorem upsert_comm {j k : κ} (hjk : j ≠ k) (f g : Option α → α) {l : Keyed κ α} (h : j ∈ keys l) :
    upsert k f (upsert j g l) = upsert j g (upsert k f l) := by
  induction l with
  | nil => cases h
  | cons p l ih =>
    obtain ⟨i, b⟩ := p
    by_cases hi : i = j
    · subst hi
      simp [upsert, hjk]
    · have hj : j ∈ keys l := (List.mem_cons.1 h).resolve_left (Ne.symm hi)
      by_cases hk : i = k
      · subst hk
        simp [upsert, hi]
      · simp [upsert, hi, hk, ih hj]

theorem length_upsert (k : κ) (f : Option α → α) (l : Keyed κ α) :
    (upsert k f l).length = if k ∈ keys l then l.length else l.length + 1 := by
  have hlen : ∀ l : Keyed κ α, l.length = (keys l).length := fun l => (List.length_map _).symm
  rw [hlen, keys_upsert]
  split
  · exact (hlen l).symm
  · rw [List.length_append, List.length_singleton, ← hlen]

/-- A view of the values that a change leaves as it is. -/
theorem map_upsert {β : Type} {g : α → β} {f : Option α → α} (hf : ∀ a, g (f (some a)) = g a) (k : κ)
    (l : Keyed κ α) : (upsert k f l).map (fun p => g p.2) =
      if k ∈ keys l then l.map (fun p => g p.2) else l.map (fun p => g p.2) ++ [g (f none)] := by
  induction l with
  | nil => rfl
  | cons p l ih =>
    obtain ⟨j, a⟩ := p
    by_cases hj : j = k
    · simp [upsert, hj, hf]
    · simp only [upsert, hj, if_false, List.map_cons, ih, keys_cons, List.mem_cons, Ne.symm hj, false_or]
      split <;> rfl

/-- A change that keeps the values leaves the list as it is but for what comes last. -/
theorem prefix_upsert {k : κ} {f : Option α → α} {l : Keyed κ α} (hf : ∀ a, f (some a) = a) : l <+: upsert k f l := by
  by_cases hk : k ∈ keys l
  · obtain ⟨a, ha⟩ := mem_keys_iff.1 hk
    exact ⟨[], by rw [List.append_nil, upsert_of_get? ha (hf a)]⟩
  · rw [upsert_of_not_mem hk]
    exact List.prefix_append _ _

/-- What holds of all entries still holds if it holds of the new value. -/
theorem forall_upsert {P : κ → α → Prop} {k : κ} {f : Option α → α} {l : Keyed κ α} (h : ∀ e ∈ l, P e.1 e.2)
    (hf : ∀ old, (∀ a ∈ old, P k a) → P k (f old)) : ∀ e ∈ upsert k f l, P e.1 e.2 := by
  induction l with
  | nil =>
    rw [upsert, List.forall_mem_singleton]
    exact hf none (by simp)
  | cons p l ih =>
    obtain ⟨j, a⟩ := p
    rw [List.forall_mem_cons] at h
    by_cases hj : j = k
    · subst hj
      rw [upsert, if_pos rfl, List.forall_mem_cons]
      exact ⟨hf (some a) (by simpa using h.1), h.2⟩
    · rw [upsert, if_neg hj, List.forall_mem_cons]
      exact ⟨h.1, ih h.2⟩

/-! ### Other keys -/

section

variable {ι : Type} [DecidableEq ι] {g : κ → ι} {k : κ} {l : Keyed κ α}

/-- Changing the keys changes what is put under a key in the same way, as long as no other key becomes this one. -/
theorem upsert_map_key (hg : ∀ j ∈ keys l, g j = g k → j = k) (f : Option α → α) :
    upsert (g k) f (l.map fun p => (g p.1, p.2)) = (upsert k f l).map fun p => (g p.1, p.2) := by
  induction l with
  | nil => rfl
  | cons p l ih =>
    obtain ⟨j, a⟩ := p
    by_cases hj : j = k
    · simp [upsert, hj]
    · have hne : g j ≠ g k := fun e => hj (hg j (by simp) e)
      simp [upsert, hj, hne, ih fun i hi => hg i (by simp [hi])]

theorem get?_map_key (hg : ∀ j ∈ keys l, g j = g k → j = k) :
    get? (l.map fun p => (g p.1, p.2)) (g k) = get? l k := by
  induction l with
  | nil => rfl
  | cons p l ih =>
    rw [List.map_cons, get?_cons, get?_cons, ih fun i hi => hg i (by simp [hi])]
    by_cases hp : p.1 = k
    · simp [hp]
    · have hne : g p.1 ≠ g k := fun e => hp (hg p.1 (by simp) e)
      simp [hp, hne]

end

/-! ### Numbered elements -/

/-- A view that does not show the numbers. -/
theorem map_mapIdx {β γ : Type} {f : Nat → α → β} {g : β → γ} {h : α → γ} (hg : ∀ i a, g (f i a) = h a) (l : List α) :
    (l.mapIdx f).map g = l.map h := by
  apply List.ext_getElem?
  intro i
  rw [List.getElem?_map, List.getElem?_mapIdx, List.getElem?_map, Option.map_map]
  congr 1
  funext a
  exact hg i a

/-- A view that does not show a change. -/
theorem map_modify {β : Type} {f : α → α} {g : α → β} (hg : ∀ a, g (f a) = g a) (l : List α) (i : Nat) :
    (l.modify i f).map g = l.map g := by
  induction l generalizing i with
  | nil => simp
  | cons a l ih =>
    cases i with
    | zero => rw [List.modify_zero_cons, List.map_cons, List.map_cons, hg]
    | succ i => rw [List.modify_succ_cons, List.map_cons, List.map_cons, ih]

/-- Of the numbered elements of a class one is the last if none of those behind it is in the class. -/
theorem filter_zipIdx_split {p : α → Bool} {l r : List α} {a : α} (hr : ∀ x ∈ r, p x = false) :
    (l ++ a :: r).zipIdx.filter (fun q => p q.1) =
      l.zipIdx.filter (fun q => p q.1) ++ if p a = true then [(a, l.length)] else [] := by
  have hnil : (r.zipIdx (l.length + 1)).filter (fun q => p q.1) = [] := by
    rw [List.filter_eq_nil_iff]
    intro q hq
    rw [hr q.1 (List.fst_mem_of_mem_zipIdx hq)]
    exact Bool.false_ne_true
  rw [List.zipIdx_append, List.filter_append, Nat.zero_add, List.zipIdx_cons, List.filter_cons, hnil]

/-- If the elements of a list are numbered by their keys, an element is found by its number. -/
theorem find?_of_numbered {β : Type} [DecidableEq β] {l : List α} {key : α → β} {number : Nat → β}
    (hinj : ∀ i j, number i = number j → i = j) (h : ∀ i a, l[i]? = some a → key a = number i) (i : Nat) :
    l.find? (fun a => key a = number i) = l[i]? := by
  cases hi : l[i]? with
  | none =>
    rw [List.find?_eq_none]
    intro a ha
    obtain ⟨j, hj⟩ := List.mem_iff_getElem?.1 ha
    simp only [decide_eq_true_eq, h j a hj]
    intro e
    rw [hinj _ _ e, hi] at hj
    cases hj
  | some a =>
    rw [List.find?_eq_some_iff_getElem]
    obtain ⟨hlt, ha⟩ := List.getElem?_eq_some_iff.1 hi
    refine ⟨by simpa using h i a hi, i, hlt, ha, ?_⟩
    intro j hj
    have := h j _ (List.getElem?_eq_getElem (by omega))
    simp only [this, Bool.not_eq_true', decide_eq_false_iff_not]
    intro e
    have := hinj _ _ e
    omega

theorem nodup_of_numbered {β : Type} {l : List α} {key : α → β} {number : Nat → β}
    (hinj : ∀ i j, number i = number j → i = j) (h : ∀ i a, l[i]? = some a → key a = number i) :
    (l.map key).Nodup := by
  rw [List.nodup_iff_pairwise_ne, List.pairwise_iff_getElem]
  intro i j hi hj hij he
  rw [List.length_map] at hi hj
  rw [List.getElem_map, List.getElem_map, h i _ (List.getElem?_eq_getElem hi),
    h j _ (List.getElem?_eq_getElem hj)] at he
  have := hinj _ _ he
  omega

/-- In a list without repeated keys every element is found by its key. -/
theorem find?_of_nodup {β : Type} [DecidableEq β] {l : List α} {key : α → β} (hl : (l.map key).Nodup) {a : α}
    (h : a ∈ l) : l.find? (fun b => key b = key a) = some a := by
  induction l with
  | nil => cases h
  | cons b l ih =>
    rw [List.map_cons, List.nodup_cons] at hl
    rw [List.find?_cons]
    rcases List.mem_cons.1 h with rfl | h
    · simp
    · have hba : key b ≠ key a := fun e => hl.1 (e ▸ List.mem_map_of_mem h)
      simp [hba, ih hl.2 h]

/-- Without repeated keys it does not matter in which order a list is searched. -/
theorem find?_perm {β : Type} [DecidableEq β] {l m : List α} {key : α → β} (hl : (l.map key).Nodup) (h : l.Perm m)
    (k : β) : l.find? (fun a => key a = k) = m.find? (fun a => key a = k) := by
  by_cases hk : ∃ a ∈ l, key a = k
  · obtain ⟨a, ha, rfl⟩ := hk
    rw [find?_of_nodup hl ha, find?_of_nodup ((h.map key).nodup_iff.1 hl) (h.mem_iff.1 ha)]
  · have hnone : ∀ a ∈ l, ¬ decide (key a = k) = true := fun a ha hka => hk ⟨a, ha, of_decide_eq_true hka⟩
    rw [List.find?_eq_none.2 hnone, List.find?_eq_none.2 fun a ha => hnone a (h.mem_iff.2 ha)]

theorem filter_of_nodup {β : Type} [DecidableEq β] {l : List α} {key : α → β} (hl : (l.map key).Nodup) {a : α}
    (h : a ∈ l) : l.filter (fun b => key b = key a) = [a] := by
  induction l with
  | nil => cases h
  | cons b l ih =>
    rw [List.map_cons, List.nodup_cons] at hl
    rcases List.mem_cons.1 h with rfl | h
    · have hnil : l.filter (fun b => key b = key a) = [] := by
        rw [List.filter_eq_nil_iff]
        intro b hb
        rw [decide_eq_true_eq]
        exact fun e => hl.1 (e ▸ List.mem_map_of_mem hb)
      simp [hnil]
    · have hba : key b ≠ key a := fun e => hl.1 (e ▸ List.mem_map_of_mem h)
      simp [hba, ih hl.2 h]

/-- Something is found under the keys that there are. -/
theorem isSome_find? {β : Type} [DecidableEq β] (key : α → β) (l : List α) (k : β) :
    (l.find? (fun a => key a = k)).isSome = (l.map key).contains k := by
  rw [Bool.eq_iff_iff, List.find?_isSome, List.contains_iff_mem, List.mem_map]
  simp

/-! ### The first of every key -/

variable {key : α → κ}

theorem mem_of_mem_firsts {l : List α} {a : α} (h : a ∈ firsts key l) : a ∈ l := by
  induction l with
  | nil => cases h
  | cons b l ih =>
    rw [firsts, List.mem_cons, List.mem_filter] at h
    rcases h with rfl | ⟨h, -⟩
    · exact List.mem_cons_self
    · exact List.mem_cons_of_mem _ (ih h)

theorem nodup_map_firsts (l : List α) : ((firsts key l).map key).Nodup := by
  induction l with
  | nil => exact List.nodup_nil
  | cons a l ih =>
    rw [firsts, List.map_cons, List.nodup_cons]
    refine ⟨?_, (List.filter_sublist.map key).nodup ih⟩
    rw [List.mem_map]
    rintro ⟨b, hb, he⟩
    simpa [he] using (List.mem_filter.1 hb).2

theorem mem_map_firsts {l : List α} {k : κ} : k ∈ (firsts key l).map key ↔ k ∈ l.map key := by
  induction l with
  | nil => rfl
  | cons a l ih =>
    rw [firsts, List.map_cons, List.map_cons, List.mem_cons, List.mem_cons, ← ih]
    by_cases h : k = key a
    · simp [h]
    · simp only [h, false_or, List.mem_map, List.mem_filter]
      constructor
      · rintro ⟨b, ⟨hb, -⟩, rfl⟩
        exact ⟨b, hb, rfl⟩
      · rintro ⟨b, hb, rfl⟩
        exact ⟨b, ⟨hb, by simpa using h⟩, rfl⟩

/-- Each of several values is kept once. -/
theorem nodup_firsts (l : List κ) : (firsts id l).Nodup := by
  have hnodup : ((firsts id l).map id).Nodup := nodup_map_firsts l
  rwa [List.map_id] at hnodup

theorem mem_firsts_id {l : List κ} {k : κ} : k ∈ firsts id l ↔ k ∈ l := by
  have hmem : k ∈ (firsts id l).map id ↔ k ∈ l.map id := mem_map_firsts
  rwa [List.map_id, List.map_id] at hmem

/-- An element is kept if it is the first with its key. -/
theorem mem_firsts {l : List α} {a : α} : a ∈ firsts key l ↔ l.find? (fun b => key b = key a) = some a := by
  induction l with
  | nil => simp [firsts]
  | cons b l ih =>
    rw [firsts, List.mem_cons, List.mem_filter, ih, List.find?_cons]
    by_cases hb : key b = key a
    · simp [hb, eq_comm]
    · have hne : a ≠ b := fun e => hb (e ▸ rfl)
      simp [hb, hne, Ne.symm hb]

/-- An element at the end is kept if its key is new. -/
theorem firsts_concat (l : List α) (a : α) :
    firsts key (l ++ [a]) = if key a ∈ l.map key then firsts key l else firsts key l ++ [a] := by
  induction l with
  | nil => rfl
  | cons b l ih =>
    rw [List.cons_append, firsts, ih, firsts, List.map_cons]
    by_cases hb : key a = key b
    · rw [if_pos (List.mem_cons.2 (Or.inl hb))]
      split
      · rfl
      · simp [List.filter_append, hb]
    · simp only [List.mem_cons, hb, false_or]
      split
      · rfl
      · simp [List.filter_append, hb]

/-- The first entries of all keys are those that look-up finds. -/
theorem mem_firsts_iff {l : Keyed κ α} {p : κ × α} : p ∈ firsts Prod.fst l ↔ get? l p.1 = some p.2 := by
  induction l with
  | nil => simp [firsts, get?]
  | cons q l ih =>
    rw [firsts, List.mem_cons, List.mem_filter, ih, get?_cons]
    by_cases hq : q.1 = p.1
    · simp [hq, Prod.ext_iff, eq_comm]
    · simp [hq, Ne.symm hq, Prod.ext_iff]

/-- Changing the elements but not their keys changes what is kept in the same way. -/
theorem firsts_map {β : Type} {g : β → α} {k : β → κ} (h : ∀ b, key (g b) = k b) (l : List β) :
    firsts key (l.map g) = (firsts k l).map g := by
  induction l with
  | nil => rfl
  | cons b l ih =>
    rw [List.map_cons, firsts, firsts, List.map_cons, ih, List.filter_map]
    simp only [h, Function.comp_def]

/-- A list without repeated keys is kept as it is. -/
theorem firsts_of_nodup {l : List α} (h : (l.map key).Nodup) : firsts key l = l := by
  induction l with
  | nil => rfl
  | cons a l ih =>
    rw [List.map_cons, List.nodup_cons] at h
    rw [firsts, ih h.2, List.filter_eq_self.2]
    intro b hb
    simpa using fun e : key b = key a => h.1 (e ▸ List.mem_map_of_mem hb)

/-- Putting values under keys one after the other adds each new key where it comes first. -/
theorem keys_foldl_upsert {β : Type} {k : β → κ} {f : β → Option α → α} (bs : List β) (l : Keyed κ α) :
    keys (bs.foldl (fun l b => upsert (k b) (f b) l) l) =
      keys l ++ (firsts (fun k => k) (bs.map k)).filter (· ∉ keys l) := by
  induction bs generalizing l with
  | nil => rw [List.foldl_nil, List.map_nil, firsts, List.filter_nil, List.append_nil]
  | cons b bs ih =>
    rw [List.foldl_cons, ih, keys_upsert, List.map_cons, firsts, List.filter_cons, List.filter_filter]
    by_cases hk : k b ∈ keys l
    · rw [if_pos hk, if_neg (by simpa using hk)]
      congr 1
      apply List.filter_congr
      intro x _
      by_cases hx : x = k b
      · simp [hx, hk]
      · simp [hx]
    · rw [if_neg hk, if_pos (by simpa using hk), List.append_assoc, List.singleton_append]
      congr 2
      apply List.filter_congr
      intro x _
      simp

/-- Of the values that are put under a key the last one stays. -/
theorem get?_foldl_upsert {β : Type} {k : β → κ} {f : β → α} (bs : List β) (j : κ) :
    get? (bs.foldl (fun l b => upsert (k b) (fun _ => f b) l) []) j =
      ((bs.filter fun b => k b = j).getLast?).map f := by
  induction bs using List.reverseRecOn with
  | nil => rfl
  | append_singleton bs b ih =>
    rw [List.foldl_append, List.foldl_cons, List.foldl_nil, get?_upsert, ih, List.filter_append]
    by_cases hj : j = k b
    · simp [hj]
    · simp [hj, Ne.symm hj]

end DiagramText.Keyed

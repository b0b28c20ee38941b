/-!
# First occurrences

`distinctOn key` keeps, of the elements with one key, the first, and leaves the order alone.
-/

namespace ShaderGraph

variable {α κ : Type} [DecidableEq κ]

/-- The elements whose key no earlier element has. -/
def distinctOn (key : α → κ) : List α → List α
  | [] => []
  | a :: rest => a :: (distinctOn key rest).filter fun b => key b ≠ key a

/-- The elements whose key some earlier element has. -/
def repeatedOn (key : α → κ) (items : List α) : List α :=
  go [] items
where
  go (seen : List κ) : List α → List α
    | [] => []
    | a :: rest =>
      if key a ∈ seen then a :: go seen rest else go (key a :: seen) rest

/-- The elements without repetitions, each where it first stands. -/
def distinct [DecidableEq α] (items : List α) : List α :=
  distinctOn id items

variable {key : α → κ}

theorem distinctOn_sublist (items : List α) : List.Sublist (distinctOn key items) items := by
  induction items with
  | nil => exact List.Sublist.slnil
  | cons a rest ih => exact (List.filter_sublist.trans ih).cons_cons a

/-- No two kept elements share a key. -/
theorem distinctOn_pairwise (items : List α) :
    (distinctOn key items).Pairwise fun a b => key a ≠ key b := by
  induction items with
  | nil => exact List.Pairwise.nil
  | cons a rest ih =>
    refine List.pairwise_cons.2 ⟨?_, ih.filter _⟩
    intro b hb
    exact fun h => absurd h.symm (by simpa using (List.mem_filter.1 hb).2)

/-- Every key survives. -/
theorem exists_mem_distinctOn {items : List α} {a : α} (h : a ∈ items) :
    ∃ b ∈ distinctOn key items, key b = key a := by
  induction items with
  | nil => simp at h
  | cons x rest ih =>
    by_cases hx : key x = key a
    · exact ⟨x, List.mem_cons_self, hx⟩
    · rcases List.mem_cons.1 h with rfl | h
      · exact absurd rfl hx
      · obtain ⟨b, hb, hk⟩ := ih h
        exact ⟨b, List.mem_cons_of_mem _ (List.mem_filter.2 ⟨hb, by simp [hk, Ne.symm hx]⟩), hk⟩

/-- Kept is the first element with its key. -/
theorem mem_distinctOn_iff {items : List α} {a : α} :
    a ∈ distinctOn key items ↔ items.find? (fun b => decide (key b = key a)) = some a := by
  induction items with
  | nil => simp [distinctOn]
  | cons x rest ih =>
    rw [distinctOn, List.mem_cons, List.mem_filter, List.find?_cons]
    by_cases hx : key x = key a
    · rw [decide_eq_true hx]
      simp [hx, eq_comm]
    · have hne : a ≠ x := fun h => hx (h ▸ rfl)
      rw [decide_eq_false hx]
      simp [hne, ih, Ne.symm hx]

/-- Where keys differ, an element is alone with its key. -/
theorem filter_eq_singleton {items : List α} (h : items.Pairwise fun a b => key a ≠ key b) {a : α}
    (ha : a ∈ items) : items.filter (fun b => decide (key b = key a)) = [a] := by
  obtain ⟨before, after, rfl⟩ := List.append_of_mem ha
  obtain ⟨-, hafter, hbefore⟩ := List.pairwise_append.1 h
  have hfront : before.filter (fun b => decide (key b = key a)) = [] := by
    refine List.filter_eq_nil_iff.2 fun b hb => ?_
    simpa using hbefore b hb a List.mem_cons_self
  have hback : after.filter (fun b => decide (key b = key a)) = [] := by
    refine List.filter_eq_nil_iff.2 fun b hb => ?_
    simpa using Ne.symm ((List.pairwise_cons.1 hafter).1 b hb)
  rw [List.filter_append, List.filter_cons_of_pos (by simp), hfront, hback, List.nil_append]

theorem mem_map_distinctOn {items : List α} {k : κ} :
    k ∈ (distinctOn key items).map key ↔ k ∈ items.map key := by
  constructor
  · intro h
    obtain ⟨a, ha, rfl⟩ := List.mem_map.1 h
    exact List.mem_map.2 ⟨a, (distinctOn_sublist items).subset ha, rfl⟩
  · intro h
    obtain ⟨a, ha, rfl⟩ := List.mem_map.1 h
    obtain ⟨b, hb, heq⟩ : ∃ b ∈ distinctOn key items, key b = key a := exists_mem_distinctOn ha
    exact List.mem_map.2 ⟨b, hb, heq⟩

/-- Of later elements those are kept whose key is new. -/
theorem distinctOn_append (x y : List α) :
    distinctOn key (x ++ y)
      = distinctOn key x ++ (distinctOn key y).filter fun b => key b ∉ x.map key := by
  induction x with
  | nil => exact (List.filter_eq_self.2 (by simp)).symm
  | cons a rest ih =>
    have hkept : ∀ b ∈ distinctOn key y,
        (decide (key b ≠ key a) && decide (key b ∉ rest.map key))
          = decide (key b ∉ (a :: rest).map key) := by
      intro b _
      simp
    rw [List.cons_append, distinctOn, distinctOn, ih, List.filter_append, List.filter_filter,
      List.filter_congr hkept, List.cons_append]

/-- An element with a new key is kept. -/
theorem distinctOn_append_cons {x y : List α} {a : α} (h : key a ∉ x.map key) :
    ∃ rest, distinctOn key (x ++ a :: y) = distinctOn key x ++ a :: rest := by
  rw [distinctOn_append, distinctOn, List.filter_cons_of_pos (by simpa using h)]
  exact ⟨_, rfl⟩

theorem mem_distinct [DecidableEq α] {items : List α} {a : α} : a ∈ distinct items ↔ a ∈ items := by
  constructor
  · exact fun h => (distinctOn_sublist items).subset h
  · intro h
    obtain ⟨b, hb, rfl⟩ := @exists_mem_distinctOn α α _ id items a h
    exact hb

theorem nodup_distinct [DecidableEq α] (items : List α) : (distinct items).Nodup :=
  distinctOn_pairwise items

/-- A last element is kept if it is new. -/
theorem distinct_concat [DecidableEq α] (items : List α) (a : α) :
    distinct (items ++ [a])
      = if a ∈ distinct items then distinct items else distinct items ++ [a] := by
  have hlast : distinct (items ++ [a]) = distinct items ++ [a].filter fun b => b ∉ items := by
    rw [distinct, distinctOn_append, List.map_id]
    rfl
  rw [hlast]
  by_cases h : a ∈ items
  · rw [if_pos (mem_distinct.2 h)]
    simp [h]
  · rw [if_neg (mt mem_distinct.1 h)]
    simp [h]

end ShaderGraph

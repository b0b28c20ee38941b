/-!
# Finite maps ordered by key

A `Dict` holds its entries in ascending order of their keys, and keys are ordered by code points.
Two maps with the same entries are equal, and walking a map visits its keys in order.
-/

namespace ShaderGraph

variable {α β : Type}

/-- A first entry is found at its key and hidden everywhere else. -/
theorem lookup_cons (key : String) (value : α) (entries : List (String × α)) (k : String) :
    ((key, value) :: entries).lookup k = if k = key then some value else entries.lookup k := by
  by_cases h : k = key
  · simp [h]
  · rw [List.lookup_cons, beq_false_of_ne h, if_neg h]

/-- Where every key stands once, the entry with a key is found. -/
theorem lookup_eq_some_of_mem {entries : List (String × α)} (h : (entries.map Prod.fst).Nodup)
    {key : String} {value : α} (he : (key, value) ∈ entries) :
    entries.lookup key = some value := by
  induction entries with
  | nil => simp at he
  | cons first rest ih =>
    obtain ⟨hfirst, hrest⟩ := List.nodup_cons.1 h
    rw [lookup_cons]
    rcases List.mem_cons.1 he with rfl | he
    · exact if_pos rfl
    · have hne : key ≠ first.1 := by
        rintro rfl
        exact hfirst (List.mem_map.2 ⟨_, he, rfl⟩)
      rw [if_neg hne, ih hrest he]

/-- A finite map from texts, its entries in strictly ascending order of keys. -/
structure Dict (α : Type) where
  entries : List (String × α)
  ascending : entries.Pairwise fun a b => a.1 < b.1

namespace Dict

/-- Puts an entry where its key belongs, in place of an entry with the same key. -/
def place (key : String) (value : α) : List (String × α) → List (String × α)
  | [] => [(key, value)]
  | (k, v) :: rest =>
    if key < k then (key, value) :: (k, v) :: rest
    else if key = k then (key, value) :: rest
    else (k, v) :: place key value rest

theorem mem_place {key : String} {value : α} {entries : List (String × α)} {e : String × α}
    (h : e ∈ place key value entries) : e = (key, value) ∨ e ∈ entries := by
  induction entries with
  | nil => simpa [place] using h
  | cons first rest ih =>
    obtain ⟨k, v⟩ := first
    rw [place] at h
    split at h
    · simpa using h
    · split at h
      · rcases List.mem_cons.1 h with h | h
        · exact Or.inl h
        · exact Or.inr (List.mem_cons_of_mem _ h)
      · rcases List.mem_cons.1 h with h | h
        · exact Or.inr (by simp [h])
        · exact (ih h).imp_right (List.mem_cons_of_mem _)

theorem ascending_place (key : String) (value : α) {entries : List (String × α)}
    (h : entries.Pairwise fun a b => a.1 < b.1) :
    (place key value entries).Pairwise fun a b => a.1 < b.1 := by
  induction entries with
  | nil => simp [place]
  | cons first rest ih =>
    obtain ⟨k, v⟩ := first
    obtain ⟨hk, hrest⟩ := List.pairwise_cons.1 h
    rw [place]
    split
    · rename_i hlt
      refine List.pairwise_cons.2 ⟨?_, h⟩
      intro e he
      rcases List.mem_cons.1 he with rfl | he
      · exact hlt
      · exact String.lt_trans hlt (hk e he)
    · split
      · rename_i heq
        subst heq
        exact List.pairwise_cons.2 ⟨hk, hrest⟩
      · rename_i hnlt hne
        refine List.pairwise_cons.2 ⟨?_, ih hrest⟩
        intro e he
        rcases mem_place he with rfl | he
        · exact String.not_le.1 fun hle => hne (String.le_antisymm hle (String.not_lt.1 hnlt))
        · exact hk e he

/-- The map without entries. -/
def empty : Dict α := ⟨[], List.Pairwise.nil⟩

instance : EmptyCollection (Dict α) := ⟨empty⟩

instance : Inhabited (Dict α) := ⟨empty⟩

/-- The map with one more entry; an entry with the same key gives way. -/
def insert (d : Dict α) (key : String) (value : α) : Dict α :=
  ⟨place key value d.entries, ascending_place key value d.ascending⟩

/-- The map of a list of entries; of entries with one key the last stays. -/
def ofList (entries : List (String × α)) : Dict α :=
  entries.foldl (fun d e => d.insert e.1 e.2) empty

/-- The value at a key. -/
def find? (d : Dict α) (key : String) : Option α :=
  d.entries.lookup key

/-- The map with its values changed, each by what becomes of its entry. -/
def map (f : String → α → β) (d : Dict α) : Dict β :=
  ⟨d.entries.map fun e => (e.1, f e.1 e.2), d.ascending.map _ fun _ _ h => h⟩

/-- The values in the order of their keys. -/
def values (d : Dict α) : List α :=
  d.entries.map Prod.snd

@[ext] theorem ext {a b : Dict α} (h : a.entries = b.entries) : a = b := by
  cases a; cases b; cases h; rfl

@[simp] theorem entries_empty : (∅ : Dict α).entries = [] := rfl

@[simp] theorem entries_map (f : String → α → β) (d : Dict α) :
    (d.map f).entries = d.entries.map fun e => (e.1, f e.1 e.2) := rfl

/-- Changing the values changes what is found, and nothing else is found. -/
theorem find?_map (f : String → α → β) (d : Dict α) (key : String) :
    (d.map f).find? key = (d.find? key).map (f key) := by
  simp only [find?, entries_map]
  induction d.entries with
  | nil => rfl
  | cons e rest ih =>
    obtain ⟨k, v⟩ := e
    by_cases h : key = k
    · subst h
      simp
    · simp [List.lookup_cons, beq_false_of_ne h, ih]

theorem lookup_place (key : String) (value : α) (entries : List (String × α)) (k : String) :
    (place key value entries).lookup k = if k = key then some value else entries.lookup k := by
  induction entries with
  | nil => exact lookup_cons key value [] k
  | cons first rest ih =>
    obtain ⟨k', v⟩ := first
    rw [place]
    split
    · exact lookup_cons key value _ k
    · split
      · rename_i heq
        subst heq
        by_cases h : k = key <;> simp [lookup_cons, h]
      · rename_i hne
        rw [lookup_cons, lookup_cons, ih]
        by_cases h : k = k'
        · subst h
          simp [Ne.symm hne]
        · simp [h]

/-- An inserted entry is found, and nothing else changes. -/
theorem find?_insert (d : Dict α) (key : String) (value : α) (k : String) :
    (d.insert key value).find? k = if k = key then some value else d.find? k :=
  lookup_place key value d.entries k

theorem find?_foldl_insert (entries : List (String × α)) (d : Dict α) (k : String) :
    (entries.foldl (fun d e => d.insert e.1 e.2) d).find? k
      = (entries.reverse.lookup k).or (d.find? k) := by
  induction entries generalizing d with
  | nil => rfl
  | cons e rest ih =>
    rw [List.foldl_cons, ih, find?_insert, List.reverse_cons, List.lookup_append, Option.or_assoc,
      lookup_cons]
    by_cases h : k = e.1 <;> simp [h]

/-- The last entry with a key is found. -/
theorem find?_ofList (entries : List (String × α)) (k : String) :
    (ofList entries).find? k = entries.reverse.lookup k := by
  rw [ofList, find?_foldl_insert]
  exact Option.or_none

theorem find?_ofList_of_mem {entries : List (String × α)} (h : (entries.map Prod.fst).Nodup)
    {key : String} {value : α} (he : (key, value) ∈ entries) :
    (ofList entries).find? key = some value := by
  rw [find?_ofList]
  refine lookup_eq_some_of_mem ?_ (List.mem_reverse.2 he)
  rw [List.map_reverse]
  exact List.pairwise_reverse.2 (h.imp Ne.symm)

end Dict

end ShaderGraph

import ShaderGraph.Proofs.Edges

/-!
# What a change affects

`flood` visits nodes from a queue and puts their unseen targets behind it. `Spread` is what every
state of the loop satisfies: whatever is visited or queued is reached from the start, the targets of
a visited node are visited or queued, and a target that is neither is still unseen. When the queue
is empty, exactly what is reached has been visited (`mem_affected`).
-/

namespace ShaderGraph

open Relation

variable {edges : Edges} {start unseen visited queue ids : List String} {id : String}

/-! ## Finding targets -/

theorem mem_discover_of_mem_queue (h : id ∈ queue) : id ∈ (discover ids queue unseen).1 := by
  induction ids generalizing queue unseen with
  | nil => exact h
  | cons first rest ih =>
    rw [discover]
    split
    · exact ih (List.mem_append_left _ h)
    · exact ih h

/-- What joins the queue is one of the targets. -/
theorem of_mem_discover (h : id ∈ (discover ids queue unseen).1) : id ∈ queue ∨ id ∈ ids := by
  induction ids generalizing queue unseen with
  | nil => exact .inl h
  | cons first rest ih =>
    rw [discover] at h
    split at h
    · rcases ih h with hmem | hmem
      · rcases List.mem_append.1 hmem with hmem | hmem
        · exact .inl hmem
        · exact .inr (List.mem_singleton.1 hmem ▸ List.mem_cons_self)
      · exact .inr (List.mem_cons_of_mem _ hmem)
    · exact (ih h).imp_right (List.mem_cons_of_mem _)

/-- What is unseen joins the queue, or it stays unseen and is no target. -/
theorem mem_discover_of_unseen (h : id ∈ unseen) : id ∈ (discover ids queue unseen).1
    ∨ id ∈ (discover ids queue unseen).2 ∧ id ∉ ids := by
  induction ids generalizing queue unseen with
  | nil => exact .inr ⟨h, List.not_mem_nil⟩
  | cons first rest ih =>
    rw [discover]
    by_cases heq : id = first
    · subst heq
      rw [if_pos h]
      exact .inl (mem_discover_of_mem_queue (List.mem_append_right _ (List.mem_singleton_self id)))
    · have hnot : id ∉ rest → id ∉ first :: rest := fun hrest => by simp [heq, hrest]
      split
      · exact (ih ((List.mem_erase_of_ne heq).2 h)).imp_right (And.imp_right hnot)
      · exact (ih h).imp_right (And.imp_right hnot)

/-! ## The loop -/

/-- Some path of edges leads from the start to the node. -/
def Edges.Reached (edges : Edges) (start : List String) (id : String) : Prop :=
  ∃ s ∈ start, ReflTransGen (fun u v => (u, v) ∈ edges) s id

/-- A state of the loop that has begun with the nodes of the start. -/
structure Spread (edges : Edges) (start unseen visited queue : List String) : Prop where
  begun : ∀ id ∈ start, id ∈ visited ∨ id ∈ queue
  reached : ∀ id, id ∈ visited ∨ id ∈ queue → edges.Reached start id
  /-- The targets of what is visited are found. -/
  closed : ∀ u ∈ visited, ∀ v, (u, v) ∈ edges → v ∈ visited ∨ v ∈ queue
  /-- A target that is not found can still be. -/
  pending : ∀ u v, (u, v) ∈ edges → (v ∈ visited ∨ v ∈ queue) ∨ v ∈ unseen

namespace Spread

/-- **Visiting a node keeps the state sound.** -/
theorem step (h : Spread edges start unseen visited (id :: queue)) :
    Spread edges start (discover (edges.targetsOf id) queue unseen).2 (visited ++ [id])
      (discover (edges.targetsOf id) queue unseen).1 := by
  have hfound : ∀ v, v ∈ visited ∨ v ∈ id :: queue →
      v ∈ visited ++ [id] ∨ v ∈ (discover (edges.targetsOf id) queue unseen).1 := by
    rintro v (hv | hv)
    · exact .inl (List.mem_append_left _ hv)
    · rcases List.mem_cons.1 hv with rfl | hv
      · exact .inl (List.mem_append_right _ (List.mem_singleton_self v))
      · exact .inr (mem_discover_of_mem_queue hv)
  refine ⟨fun s hs => hfound s (h.begun s hs), ?_, ?_, ?_⟩
  · rintro v (hv | hv)
    · rcases List.mem_append.1 hv with hv | hv
      · exact h.reached v (.inl hv)
      · exact h.reached v (.inr (List.mem_singleton.1 hv ▸ List.mem_cons_self))
    · rcases of_mem_discover hv with hv | hv
      · exact h.reached v (.inr (List.mem_cons_of_mem _ hv))
      · obtain ⟨s, hs, hpath⟩ := h.reached id (.inr List.mem_cons_self)
        exact ⟨s, hs, hpath.tail (Edges.mem_targetsOf.1 hv)⟩
  · intro u hu v huv
    rcases List.mem_append.1 hu with hu | hu
    · exact hfound v (h.closed u hu v huv)
    · -- a target of the node itself was found before, or it is found now
      obtain rfl := List.mem_singleton.1 hu
      rcases h.pending u v huv with hv | hv
      · exact hfound v hv
      · exact .inr ((mem_discover_of_unseen hv).resolve_right fun hnot =>
          hnot.2 (Edges.mem_targetsOf.2 huv))
  · intro u v huv
    rcases h.pending u v huv with hv | hv
    · exact .inl (hfound v hv)
    · rcases mem_discover_of_unseen hv with hv | hv
      · exact .inl (.inr hv)
      · exact .inr hv.1

/-- **The loop visits what is reached**, and nothing else. -/
theorem mem_flood (h : Spread edges start unseen visited queue) :
    id ∈ flood edges unseen visited queue ↔ edges.Reached start id := by
  induction unseen, visited, queue using flood.induct edges with
  | case1 unseen visited =>
    rw [flood]
    refine ⟨fun hid => h.reached id (.inl hid), ?_⟩
    rintro ⟨s, hs, hpath⟩
    induction hpath with
    | refl => exact (h.begun s hs).resolve_right List.not_mem_nil
    | tail _ huv ih => exact (h.closed _ ih _ huv).resolve_right List.not_mem_nil
  | case2 unseen visited first queue discovered ih =>
    rw [flood]
    exact ih h.step

end Spread

namespace Graph

variable {settings : Settings} {g : Graph} {changed : List String}

/-- The search starts soundly: the changed ids are queued, and every other node is unseen. -/
theorem spread_start (settings : Settings) (g : Graph) (changed : List String) :
    Spread (g.edges settings) changed (g.nodeIds.filter fun id => !changed.contains id) []
      (distinct changed) := by
  refine ⟨fun s hs => .inr (mem_distinct.2 hs), ?_, fun u hu => absurd hu List.not_mem_nil, ?_⟩
  · rintro s (hs | hs)
    · exact absurd hs List.not_mem_nil
    · exact ⟨s, mem_distinct.1 hs, .refl⟩
  · intro u v huv
    have hv : v ∈ g.nodeIds := (mem_edges.1 huv).target_mem
    by_cases hchanged : v ∈ changed
    · exact .inl (.inr (mem_distinct.2 hchanged))
    · exact .inr (List.mem_filter.2 ⟨hv, by simpa using hchanged⟩)

/-- The edges are the relation. -/
theorem edges_rel (settings : Settings) (g : Graph) :
    (fun u v => (u, v) ∈ g.edges settings) = g.Feeds settings :=
  funext fun _ => funext fun _ => propext mem_edges

/-- **A node is affected if it has changed or depends on something that has**, over any number of
edges. -/
theorem mem_affected : id ∈ g.affected settings changed
    ↔ ∃ s ∈ changed, ReflTransGen (g.Feeds settings) s id := by
  rw [affected, (spread_start settings g changed).mem_flood, Edges.Reached, edges_rel]

end Graph

end ShaderGraph

import ShaderGraph.Emit.Declarations
import ShaderGraph.Text.Word
import Mathlib.Data.List.Nodup

/-!
# The variables of a program

No variable is declared twice, and the line of a variable tells its name, so the lines and the
variables of a program correspond one to one. Declared are the outputs and the array parameters of
every node in the plan, and whatever a connection reads from a node of the graph.
-/

namespace ShaderGraph

/-! ## Names in lines -/

namespace Symbol

theorem isWordChar_of_mem_clean {text : String} {c : Char} (h : c ∈ (clean text).toList) :
    Text.isWordChar c = true := by
  rw [clean, String.toList_map] at h
  obtain ⟨x, -, rfl⟩ := List.mem_map.1 h
  split
  · rename_i hx
    simp [Text.isWordChar, hx]
  · rfl

theorem isAlphanum_toUpper {c : Char} (h : c.isAlphanum = true) : c.toUpper.isAlphanum = true := by
  delta Char.toUpper Char.isAlphanum Char.isAlpha Char.isUpper Char.isLower Char.isDigit at *
  grind

/-- A text keeps its kind of characters with a capital, if capitals are of that kind. -/
theorem forall_mem_capitalize (P : Char → Bool) (hupper : ∀ c, P c = true → P c.toUpper = true)
    {text : String} (h : ∀ c ∈ text.toList, P c = true) :
    ∀ c ∈ (capitalize text).toList, P c = true := by
  rw [capitalize]
  split
  · simp
  · rename_i first rest hlist
    rw [hlist] at h
    intro c hc
    rw [String.toList_ofList, List.mem_cons] at hc
    rcases hc with rfl | hc
    · exact hupper first (h first List.mem_cons_self)
    · exact h c (List.mem_cons_of_mem _ hc)

/-- A word followed by cleaned texts is a word, whatever their characters. -/
theorem isWordChar_of_mem_joined {mark a b : String}
    (hmark : mark.toList.all Text.isWordChar = true) :
    ∀ c ∈ (mark ++ clean a ++ "_" ++ clean b).toList, Text.isWordChar c = true := by
  intro c hc
  have hbar : "_".toList.all Text.isWordChar = true := by decide
  simp only [String.toList_append, List.mem_append] at hc
  rcases hc with ((hc | hc) | hc) | hc
  · exact List.all_eq_true.1 hmark c hc
  · exact isWordChar_of_mem_clean hc
  · exact List.all_eq_true.1 hbar c hc
  · exact isWordChar_of_mem_clean hc

theorem isWordChar_of_mem_output (nodeId port : String) :
    ∀ c ∈ (output nodeId port).toList, Text.isWordChar c = true :=
  isWordChar_of_mem_joined (by decide)

theorem isWordChar_of_mem_array (nodeId param : String) :
    ∀ c ∈ (array nodeId param).toList, Text.isWordChar c = true :=
  isWordChar_of_mem_joined (by decide)

end Symbol

namespace Declaration

/-- The name in a line: the word behind its first blank. -/
def nameIn (line : String) : String :=
  String.ofList (((line.toList.dropWhile (· != ' ')).drop 1).takeWhile Text.isWordChar)

/-- A word between a blank and a character that belongs to no word is read whole. -/
theorem nameIn_eq {line : String} {type word rest : List Char} {stop : Char}
    (hline : line.toList = type ++ ' ' :: (word ++ stop :: rest))
    (htype : type.all (· != ' ') = true) (hword : ∀ c ∈ word, Text.isWordChar c = true)
    (hstop : Text.isWordChar stop = false) : nameIn line = String.ofList word := by
  rw [nameIn, hline, List.dropWhile_append_of_pos (List.all_eq_true.1 htype),
    List.dropWhile_cons_of_neg (by simp), List.drop_one, List.tail_cons,
    List.takeWhile_append_of_pos hword, List.takeWhile_cons_of_neg (by simp [hstop]),
    List.append_nil]

/-- **A line tells the name of its variable.** -/
theorem nameIn_line {d : Declaration} (h : ∀ c ∈ d.symbol.toList, Text.isWordChar c = true) :
    nameIn d.line = d.symbol := by
  obtain ⟨type, symbol⟩ | ⟨symbol, values⟩ := d
  · obtain ⟨rest, hline⟩ : ∃ rest, (Declaration.variable type symbol).line.toList
        = type.name.toList ++ ' ' :: (symbol.toList ++ ' ' :: rest) := by
      unfold line
      simp only [String.toList_append, List.append_assoc]
      exact ⟨_, rfl⟩
    rw [nameIn_eq hline (by cases type <;> decide) h (by decide)]
    exact String.ofList_toList
  · obtain ⟨rest, hline⟩ : ∃ rest, (Declaration.array symbol values).line.toList
        = "float".toList ++ ' ' :: (symbol.toList ++ '[' :: rest) := by
      unfold line
      simp only [String.toList_append, List.append_assoc]
      exact ⟨_, rfl⟩
    rw [nameIn_eq hline (by decide) h (by decide)]
    exact String.ofList_toList

/-- The variables of a node are words. -/
theorem isWordChar_of_mem_ofNode {n : TypedNode} {d : Declaration} (h : d ∈ ofNode n) :
    ∀ c ∈ d.symbol.toList, Text.isWordChar c = true := by
  rcases List.mem_append.1 h with h | h
  · obtain ⟨port, -, rfl⟩ := List.mem_map.1 h
    exact Symbol.isWordChar_of_mem_output _ _
  · obtain ⟨e, -, rfl⟩ := List.mem_map.1 h
    exact Symbol.isWordChar_of_mem_array _ _

end Declaration

namespace Plan

variable {plan : Plan} {c : Connection} {n : TypedNode}

/-! ## What is declared -/

/-- The variables of a program. -/
def symbols (plan : Plan) : List String := plan.declarations.value.map Declaration.symbol

theorem symbols_eq (plan : Plan) : plan.symbols =
    plan.ownDeclarations.map Declaration.symbol ++ plan.undeclaredReads.map sourceSymbol := by
  rw [symbols, declarations, List.map_append, List.map_map]
  rfl

/-- The variables of the nodes are declared. -/
theorem mem_own_of_ofNode (hn : n ∈ plan.nodes) {d : Declaration}
    (hd : d ∈ Declaration.ofNode n) : d.symbol ∈ plan.ownDeclarations.map Declaration.symbol := by
  obtain ⟨own, hown, heq⟩ : ∃ own ∈ plan.ownDeclarations, own.symbol = d.symbol :=
    exists_mem_distinctOn (List.mem_flatMap.2 ⟨n, hn, hd⟩)
  exact List.mem_map.2 ⟨own, hown, heq⟩

theorem mem_symbols_of_mem_own {symbol : String}
    (h : symbol ∈ plan.ownDeclarations.map Declaration.symbol) : symbol ∈ plan.symbols := by
  rw [symbols_eq]
  exact List.mem_append_left _ h

/-- **What a connection reads from a node is declared**, for its sake if need be. -/
theorem mem_symbols_of_readsNode (hc : c ∈ plan.graph.connections) (h : plan.readsNode c = true) :
    sourceSymbol c ∈ plan.symbols := by
  by_cases hown : sourceSymbol c ∈ plan.ownDeclarations.map Declaration.symbol
  · exact mem_symbols_of_mem_own hown
  · rw [symbols_eq]
    obtain ⟨c', hc', heq⟩ : ∃ c' ∈ plan.undeclaredReads, sourceSymbol c' = sourceSymbol c :=
      exists_mem_distinctOn (List.mem_filter.2 ⟨hc, by simpa [h] using hown⟩)
    exact List.mem_append_right _ (List.mem_map.2 ⟨c', hc', heq⟩)

/-- **What is declared**: the variables of the nodes and what connections read from nodes. -/
theorem mem_symbols_iff {symbol : String} : symbol ∈ plan.symbols
    ↔ (∃ n ∈ plan.nodes, symbol ∈ (Declaration.ofNode n).map Declaration.symbol)
      ∨ ∃ c ∈ plan.graph.connections, plan.readsNode c = true ∧ sourceSymbol c = symbol := by
  constructor
  · intro h
    rw [symbols_eq] at h
    rcases List.mem_append.1 h with h | h
    · obtain ⟨d, hd, rfl⟩ := List.mem_map.1 (mem_map_distinctOn.1 h)
      obtain ⟨n, hn, hd⟩ := List.mem_flatMap.1 hd
      exact .inl ⟨n, hn, List.mem_map_of_mem hd⟩
    · obtain ⟨c, hc, rfl⟩ := List.mem_map.1 h
      obtain ⟨hc, hreads⟩ := List.mem_filter.1 ((distinctOn_sublist _).subset hc)
      exact .inr ⟨c, hc, (Bool.and_eq_true_iff.1 hreads).1, rfl⟩
  · rintro (⟨n, hn, h⟩ | ⟨c, hc, hreads, rfl⟩)
    · obtain ⟨d, hd, rfl⟩ := List.mem_map.1 h
      exact mem_symbols_of_mem_own (mem_own_of_ofNode hn hd)
    · exact mem_symbols_of_readsNode hc hreads

/-- A connection that has a variable declared for it reads what no node declares. -/
theorem not_mem_own_of_mem_undeclaredReads (h : c ∈ plan.undeclaredReads) :
    sourceSymbol c ∉ plan.ownDeclarations.map Declaration.symbol := by
  have h := (List.mem_filter.1 ((distinctOn_sublist _).subset h)).2
  simp only [Bool.and_eq_true, Bool.not_eq_true', List.contains_eq_mem,
    decide_eq_false_iff_not] at h
  exact h.2

/-- **No variable is declared twice.** -/
theorem nodup_symbols (plan : Plan) : plan.symbols.Nodup := by
  rw [symbols_eq]
  refine List.Nodup.append ?_ ?_ ?_
  · exact List.pairwise_map.2 (distinctOn_pairwise _)
  · exact List.pairwise_map.2 (distinctOn_pairwise _)
  · -- variables are declared for connections only where no node declares them
    intro symbol hown hread
    obtain ⟨c, hc, rfl⟩ := List.mem_map.1 hread
    exact not_mem_own_of_mem_undeclaredReads hc hown

/-- **The lines of a program declare its variables**, one line each and in the same order. -/
theorem map_nameIn_lines (plan : Plan) :
    (plan.declarations.value.map Declaration.line).map Declaration.nameIn = plan.symbols := by
  rw [List.map_map]
  refine List.map_congr_left fun d hd => Declaration.nameIn_line ?_
  rcases List.mem_append.1 hd with hd | hd
  · obtain ⟨n, -, hn⟩ := List.mem_flatMap.1 ((distinctOn_sublist _).subset hd)
    exact Declaration.isWordChar_of_mem_ofNode hn
  · obtain ⟨c, -, rfl⟩ := List.mem_map.1 hd
    exact Symbol.isWordChar_of_mem_output _ _

theorem nodup_lines (plan : Plan) : (plan.declarations.value.map Declaration.line).Nodup := by
  have h := plan.nodup_symbols
  rw [← map_nameIn_lines] at h
  exact h.of_map

end Plan

end ShaderGraph

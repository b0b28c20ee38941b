import ShaderGraph.Proofs.LibraryEntries

/-!
# Headers of functions

The header of a function is its type, its name and the types of its parameters: what a call needs to
find. The library tells functions apart by their signatures, which join the words of the header by
underscores. A word may hold underscores itself, so a signature does not always tell the header, and
of two functions with one signature the library keeps the first only. Where the headers differ, the
calls of the other one are left without a function.

No header is lost exactly if signatures tell headers apart, among the functions that the nodes
bring. They do if no word holds an underscore.
-/

namespace ShaderGraph

namespace Glsl.Function

variable {f g : Function}

/-- The words of the header. -/
def words (f : Function) : List String := f.returnType :: f.name :: f.paramTypes

/-- Two functions that the same calls find. -/
def SameHeader (f g : Function) : Prop :=
  f.returnType = g.returnType ∧ f.name = g.name ∧ f.paramTypes = g.paramTypes

theorem sameHeader_iff : f.SameHeader g ↔ f.words = g.words := by
  simp [SameHeader, words]

theorem SameHeader.symm (h : f.SameHeader g) : g.SameHeader f :=
  ⟨h.1.symm, h.2.1.symm, h.2.2.symm⟩

theorem SameHeader.trans {k : Function} (h : f.SameHeader g) (h' : g.SameHeader k) :
    f.SameHeader k :=
  ⟨h.1.trans h'.1, h.2.1.trans h'.2.1, h.2.2.trans h'.2.2⟩

/-- The header tells the signature. -/
theorem SameHeader.signature_eq (h : f.SameHeader g) : f.signature = g.signature := by
  have hwords := sameHeader_iff.1 h
  rw [signature, signature, ← words, ← words, hwords]

/-- No word of the header holds an underscore. -/
def IsPlain (f : Function) : Prop := ∀ word ∈ f.words, '_' ∉ word.toList

/-- The signature of a plain function can be cut into the words again. -/
theorem IsPlain.splitOn_signature (h : f.IsPlain) :
    f.signature.toList.splitOn '_' = f.words.map String.toList := by
  have hjoin : f.signature.toList = ['_'].intercalate (f.words.map String.toList) :=
    String.toList_intercalate
  rw [hjoin]
  refine List.splitOn_intercalate '_' ?_ (by simp [words])
  intro chars hchars
  obtain ⟨word, hword, rfl⟩ := List.mem_map.1 hchars
  exact h word hword

/-- Plain functions are told apart by their signatures. -/
theorem IsPlain.sameHeader (hf : f.IsPlain) (hg : g.IsPlain) (h : f.signature = g.signature) :
    f.SameHeader g := by
  have hchars : f.words.map String.toList = g.words.map String.toList := by
    rw [← hf.splitOn_signature, ← hg.splitOn_signature, h]
  exact sameHeader_iff.2 (List.map_injective_iff.2 (fun _ _ => String.toList_inj.1) hchars)

end Glsl.Function

namespace Plan

variable {plan : Plan}

/-- Every function that a node brings is in the library, by its header. -/
def KeepsHeaders (plan : Plan) : Prop :=
  ∀ t : plan.Turn, ∀ d ∈ t.functions, ∃ text ∈ plan.library.value.texts,
    ∃ f ∈ Glsl.functionsOf text, f.SameHeader d

/-- Signatures tell headers apart, among the functions that the nodes bring. -/
def TellsHeaders (plan : Plan) : Prop :=
  ∀ t u : plan.Turn, ∀ d ∈ t.functions, ∀ e ∈ u.functions,
    d.signature = e.signature → d.SameHeader e

/-- A header in the library is that of the function with its signature. -/
theorem sameHeader_of_mem_texts {d f g : Glsl.Function} {text : String}
    (hf : plan.library.value.function? d.signature = some f)
    (htext : text ∈ plan.library.value.texts) (hg : g ∈ Glsl.functionsOf text)
    (h : g.SameHeader d) : f.SameHeader d := by
  obtain ⟨k, hk, rfl⟩ := List.mem_map.1 htext
  -- the text scans back as the function it belongs to
  rw [functionsOf_of_mem_library hk, List.mem_singleton] at hg
  subst hg
  have hfound := plan.keeps_library.function?_eq hk
  rw [h.signature_eq, hf] at hfound
  obtain rfl := Option.some.inj hfound
  exact h

theorem keepsHeaders_iff_tellsHeaders (plan : Plan) :
    plan.KeepsHeaders ↔ plan.TellsHeaders := by
  constructor
  · -- `d` and `e` have one signature, hence one entry, and it has the headers of both
    intro hkeeps t u d hd e he hsignature
    obtain ⟨f, hf, -⟩ := t.entry hd
    have hfd : f.SameHeader d := by
      obtain ⟨text, htext, g, hg, h⟩ := hkeeps t d hd
      exact sameHeader_of_mem_texts hf htext hg h
    have hfe : f.SameHeader e := by
      obtain ⟨text, htext, g, hg, h⟩ := hkeeps u e he
      exact sameHeader_of_mem_texts (hsignature ▸ hf) htext hg h
    exact hfd.symm.trans hfe
  · -- the entry of `d` was brought in some turn, so its header is told by the signature
    intro htells t d hd
    obtain ⟨f, hf, -⟩ := t.entry hd
    have hmem := Library.mem_of_function? hf
    obtain ⟨u, hu⟩ := exists_turn_of_mem_library hmem
    refine ⟨f.text, Library.mem_texts_of_mem hmem, f, ?_, ?_⟩
    · rw [functionsOf_of_mem_library hmem]
      exact List.mem_cons_self
    · exact htells u t f hu d hd (Library.signature_of_function? hf)

end Plan

/-- **No header is lost exactly if signatures tell headers apart.** For every plan, whatever its
order, the library holds a function with the header of each function that a node brings, exactly if
no two functions that nodes bring have one signature and different headers. That is so if no word of
a header holds an underscore. -/
theorem headers_kept_iff (plan : Plan) :
    (plan.KeepsHeaders ↔ plan.TellsHeaders) ∧
    ((∀ t : plan.Turn, ∀ d ∈ t.functions, d.IsPlain) → plan.KeepsHeaders) := by
  have hiff := plan.keepsHeaders_iff_tellsHeaders
  refine ⟨hiff, fun hplain => hiff.2 ?_⟩
  intro t u d hd e he hsignature
  exact (hplain t d hd).sameHeader (hplain u e he) hsignature

/-- A function that takes an `int` and one whose name ends in `int` share a signature, and the
library loses the second: nothing in it has its header. -/
theorem header_lost : ¬Plan.homonyms.KeepsHeaders ∧
    Glsl.Function.ending ∈ Plan.homonymTurn.functions ∧
    ∀ text ∈ Plan.homonyms.library.value.texts, ∀ f ∈ Glsl.functionsOf text,
      ¬f.SameHeader .ending := by
  have hending : Glsl.Function.ending ∈ Plan.homonymTurn.functions := by
    rw [Plan.functions_homonymTurn]
    exact List.mem_cons_self
  obtain ⟨htaking, -⟩ := Plan.callerTurn.behind_front Plan.functions_callerTurn Plan.isFirst_taking
  have hsignature : Glsl.Function.taking.signature = Glsl.Function.ending.signature := by decide
  have hfound : Plan.homonyms.library.value.function? Glsl.Function.ending.signature
      = some .taking := by
    rw [← hsignature]
    exact Plan.homonyms.keeps_library.function?_eq htaking
  have hlost : ∀ text ∈ Plan.homonyms.library.value.texts, ∀ f ∈ Glsl.functionsOf text,
      ¬f.SameHeader .ending := by
    intro text htext f hf h
    have hsame : Glsl.Function.taking.SameHeader .ending :=
      Plan.sameHeader_of_mem_texts hfound htext hf h
    exact absurd hsame.2.1 (by decide)
  refine ⟨fun hkeeps => ?_, hending, hlost⟩
  obtain ⟨text, htext, f, hf, h⟩ := hkeeps Plan.homonymTurn .ending hending
  exact hlost text htext f hf h

end ShaderGraph

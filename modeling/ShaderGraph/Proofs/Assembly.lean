import ShaderGraph.Program
import Mathlib.Data.List.Infix
import Mathlib.Data.List.Nodup

/-!
# The text of a program

Marks are replaced one kind after another, so a part that holds a mark would be searched in its
turn. No mark stands in a text without two opening braces in a row, and the frame lets none arise
where a part meets it. So for parts without such braces the text of a program is the frame with
every mark replaced at once (`text_eq`). The colour is put in last and may hold anything.
-/

namespace ShaderGraph

/-! ## Replacing one kind of mark -/

namespace Text

/-- A text in which no mark can start. -/
def Unmarked (text : List Char) : Prop := ¬['\x7b', '\x7b'] <:+: text

instance (text : List Char) : Decidable (Unmarked text) := inferInstanceAs (Decidable (¬_))

theorem Unmarked.mono {part text : List Char} (h : Unmarked text) (hpart : part <:+: text) :
    Unmarked part := fun hbraces => h (hbraces.trans hpart)

theorem Unmarked.of_not_mem {text : List Char} (h : '\x7b' ∉ text) : Unmarked text :=
  fun hbraces => h (hbraces.subset List.mem_cons_self)

theorem Unmarked.append {x y : List Char} (hx : Unmarked x) (hy : Unmarked y)
    (hseam : x.getLast? ≠ some '\x7b' ∨ y.head? ≠ some '\x7b') : Unmarked (x ++ y) := by
  intro hbraces
  rcases List.infix_append_iff.1 hbraces with h | h | ⟨front, back, hsplit, hfront, hback⟩
  · exact hx h
  · exact hy h
  · -- both braces on one side, or one on each
    rcases front with _ | ⟨a, _ | ⟨b, front⟩⟩
    · rw [List.nil_append] at hsplit
      exact hy (hsplit ▸ hback.isInfix)
    · obtain ⟨rfl, rfl⟩ : '\x7b' = a ∧ ['\x7b'] = back := by simpa using hsplit
      rcases hseam with hlast | hhead
      · obtain ⟨before, rfl⟩ := hfront
        simp at hlast
      · obtain ⟨after, rfl⟩ := hback
        simp at hhead
    · obtain ⟨rfl, rfl, rfl, rfl⟩ : '\x7b' = a ∧ '\x7b' = b ∧ front = [] ∧ back = [] := by
        simpa using hsplit
      exact hx hfront.isInfix

theorem Unmarked.intercalate {sep : String} (hsep : sep = "\n" ∨ sep = "\n\n")
    {texts : List String} (h : ∀ text ∈ texts, Unmarked text.toList) :
    Unmarked (sep.intercalate texts).toList := by
  have hopens : ∀ y : String, (sep ++ y).toList.head? ≠ some '\x7b' := by
    intro y
    rcases hsep with rfl | rfl <;> simp
  have hplain : '\x7b' ∉ sep.toList := by
    rcases hsep with rfl | rfl <;> decide
  induction texts with
  | nil => exact .of_not_mem (by simp)
  | cons text rest ih =>
    obtain ⟨htext, hrest⟩ := List.forall_mem_cons.1 h
    rcases rest with _ | ⟨next, rest⟩
    · simpa using htext
    · have hjoined : Unmarked (sep ++ sep.intercalate (next :: rest)).toList := by
        rw [String.toList_append]
        exact (Unmarked.of_not_mem hplain).append (ih hrest)
          (Or.inl fun hlast => hplain (List.mem_of_getLast? hlast))
      rw [String.intercalate_cons_cons, String.append_assoc, String.toList_append]
      exact htext.append hjoined (Or.inr (hopens _))

/-- No mark starts at the front of such a text, whatever follows it. -/
theorem Unmarked.not_starts {c : Char} {rest y : List Char} (hx : Unmarked (c :: rest))
    (hseam : (c :: rest).getLast? ≠ some '\x7b' ∨ y.head? ≠ some '\x7b') :
    ¬['\x7b', '\x7b'] <+: c :: (rest ++ y) := by
  rintro ⟨after, hafter⟩
  obtain ⟨rfl, hnext⟩ := List.cons.inj hafter
  rcases rest with _ | ⟨d, rest⟩
  · rcases hseam with hlast | hhead
    · exact hlast rfl
    · exact hhead (congrArg List.head? hnext).symm
  · obtain ⟨rfl, -⟩ := List.cons.inj hnext
    exact hx (List.prefix_append ['\x7b', '\x7b'] rest).isInfix

/-- What is behind the first character meets what follows in the same way. -/
theorem seam_tail {c : Char} {rest y : List Char}
    (hseam : (c :: rest).getLast? ≠ some '\x7b' ∨ y.head? ≠ some '\x7b') :
    rest.getLast? ≠ some '\x7b' ∨ y.head? ≠ some '\x7b' := by
  rcases rest with _ | ⟨d, rest⟩
  · exact Or.inl (by simp)
  · exact hseam

variable {mark : List Char}

/-- A text in which no mark can start is passed over. -/
theorem replaceFrom_unmarked (hmark : ['\x7b', '\x7b'] <+: mark) (new : List Char)
    {x y : List Char} (hx : Unmarked x)
    (hseam : x.getLast? ≠ some '\x7b' ∨ y.head? ≠ some '\x7b') :
    replaceFrom mark new 0 (x ++ y) = x ++ replaceFrom mark new 0 y := by
  induction x with
  | nil => rfl
  | cons c rest ih =>
    have hnot : ¬mark.isPrefixOf (c :: (rest ++ y)) = true := fun hfound =>
      hx.not_starts hseam (hmark.trans (List.isPrefixOf_iff_prefix.1 hfound))
    rw [List.cons_append, replaceFrom, if_neg hnot,
      ih (hx.mono (List.suffix_cons c rest).isInfix) (seam_tail hseam)]
    rfl

theorem replaceFrom_length (mark new z y : List Char) :
    replaceFrom mark new z.length (z ++ y) = replaceFrom mark new 0 y := by
  induction z with
  | nil => rfl
  | cons c z ih => exact ih

/-- A mark is replaced. -/
theorem replaceFrom_mark (hmark : mark ≠ []) (new y : List Char) :
    replaceFrom mark new 0 (mark ++ y) = new ++ replaceFrom mark new 0 y := by
  obtain ⟨c, rest, rfl⟩ := List.exists_cons_of_ne_nil hmark
  have hfound : (c :: rest).isPrefixOf (c :: (rest ++ y)) = true :=
    List.isPrefixOf_iff_prefix.2 (List.prefix_append (c :: rest) y)
  rw [List.cons_append, replaceFrom, if_pos hfound, List.length_cons, Nat.add_sub_cancel,
    replaceFrom_length]

end Text

/-! ## Frames and marks -/

namespace Program

variable {marks : Mark → String} {mark : Mark} {pieces : List (String ⊕ Mark)}

@[simp] theorem textOf_nil (marks : Mark → String) : textOf marks [] = "" := rfl

@[simp] theorem textOf_inl (marks : Mark → String) (text : String) (rest : List (String ⊕ Mark)) :
    textOf marks (.inl text :: rest) = text ++ textOf marks rest := by
  simp [textOf]

@[simp] theorem textOf_inr (marks : Mark → String) (mark : Mark) (rest : List (String ⊕ Mark)) :
    textOf marks (.inr mark :: rest) = marks mark ++ textOf marks rest := by
  simp [textOf]

/-- The first character of a frame, if it starts with a text. -/
def opening : List (String ⊕ Mark) → Option Char
  | .inl text :: _ => text.toList.head?
  | _ => none

theorem head?_textOf {c : Char} (h : opening pieces = some c) (marks : Mark → String) :
    (textOf marks pieces).toList.head? = some c := by
  rcases pieces with _ | ⟨text | mark, rest⟩
  · cases h
  · rw [textOf_inl, String.toList_append, List.head?_append]
    exact Option.or_eq_some_iff.2 (Or.inl h)
  · cases h

/-- Whether no mark can arise where the texts of a frame meet its parts. -/
def isSpaced : List (String ⊕ Mark) → Bool
  | [] => true
  | .inl text :: rest =>
    decide (Text.Unmarked text.toList) && text.toList.getLast? != some '\x7b' && isSpaced rest
  | .inr _ :: rest => (opening rest).any (· != '\x7b') && isSpaced rest

namespace Mark

theorem mem_all (mark : Mark) : mark ∈ all := by
  cases mark <;> decide

theorem not_mem_name (mark : Mark) : '\x7b' ∉ mark.name.toList ∧ '\x7d' ∉ mark.name.toList := by
  cases mark <;> decide

theorem eq_of_name_eq {a b : Mark} (h : a.name = b.name) : a = b := by
  have hnodup : (all.map name).Nodup := by decide
  exact List.inj_on_of_nodup_map hnodup (mem_all a) (mem_all b) h

theorem toList_spelling (mark : Mark) :
    mark.spelling.toList = '\x7b' :: '\x7b' :: (mark.name.toList ++ ['\x7d', '\x7d']) := by
  rw [spelling, String.toList_append, String.toList_append]
  rfl

theorem braces_prefix_spelling (mark : Mark) : ['\x7b', '\x7b'] <+: mark.spelling.toList :=
  ⟨_, mark.toList_spelling.symm⟩

/-- No mark starts with another one. -/
theorem eq_of_spelling_starts {a b : Mark} (h : a.spelling.toList <+: b.spelling.toList) :
    a = b := by
  rw [toList_spelling, toList_spelling, List.cons_prefix_cons, List.cons_prefix_cons] at h
  obtain ⟨after, hafter⟩ := h.2.2
  have hname : ∀ (mark : Mark) (rest : List Char),
      (mark.name.toList ++ '\x7d' :: rest).takeWhile (· != '\x7d') = mark.name.toList := by
    intro mark rest
    rw [List.takeWhile_append_of_pos, List.takeWhile_cons_of_neg (by simp), List.append_nil]
    intro c hc
    rw [bne_iff_ne]
    rintro rfl
    exact mark.not_mem_name.2 hc
  have hnames := congrArg (List.takeWhile (· != '\x7d')) hafter
  rw [List.append_assoc, List.cons_append, hname, hname, String.toList_inj] at hnames
  exact eq_of_name_eq hnames

end Mark

/-- A mark is not found in another one. -/
theorem replaceFrom_spelling {other : Mark} (hother : other ≠ mark) (new y : List Char) :
    Text.replaceFrom mark.spelling.toList new 0 (other.spelling.toList ++ y)
      = other.spelling.toList ++ Text.replaceFrom mark.spelling.toList new 0 y := by
  have hnot : ¬mark.spelling.toList.isPrefixOf (other.spelling.toList ++ y) = true := by
    intro hfound
    rcases List.prefix_or_prefix_of_prefix (List.isPrefixOf_iff_prefix.1 hfound)
      (List.prefix_append _ _) with h | h
    · exact hother (Mark.eq_of_spelling_starts h).symm
    · exact hother (Mark.eq_of_spelling_starts h)
  -- behind its first brace a mark has no two braces in a row
  have hrest : Text.Unmarked ('\x7b' :: (other.name.toList ++ ['\x7d', '\x7d'])) := by
    have hname : '\x7b' ∉ other.name.toList ++ ['\x7d', '\x7d'] := by
      simp [other.not_mem_name.1]
    have hhead : (other.name.toList ++ ['\x7d', '\x7d']).head? ≠ some '\x7b' :=
      fun hhead => hname (List.mem_of_mem_head? hhead)
    exact Text.Unmarked.append (x := ['\x7b']) (by decide) (.of_not_mem hname) (Or.inr hhead)
  have hlast : ('\x7b' :: (other.name.toList ++ ['\x7d', '\x7d'])).getLast? ≠ some '\x7b' := by
    rw [← List.cons_append, List.getLast?_append]
    simp
  rw [other.toList_spelling, List.cons_append] at hnot ⊢
  rw [Text.replaceFrom, if_neg hnot,
    Text.replaceFrom_unmarked mark.braces_prefix_spelling new hrest (Or.inl hlast)]
  rfl

/-! ## Parts -/

/-- The texts that a part is joined from. -/
def chunks (p : Program) : Mark → List String
  | .version => [p.version]
  | .time => [Symbol.time]
  | .resolution => [Symbol.resolution]
  | .uniforms => p.uniforms
  | .globals => p.globals
  | .functions => (p.functions.map Text.trimmed).filter (· != "")
  | .body => p.bodies
  | .color => [p.color]

/-- Every part is joined by line feeds. -/
theorem exists_part_eq (p : Program) (mark : Mark) :
    ∃ sep, (sep = "\n" ∨ sep = "\n\n") ∧ p.part mark = sep.intercalate (p.chunks mark) := by
  cases mark with
  | version => exact ⟨"\n", Or.inl rfl, String.intercalate_singleton.symm⟩
  | time => exact ⟨"\n", Or.inl rfl, String.intercalate_singleton.symm⟩
  | resolution => exact ⟨"\n", Or.inl rfl, String.intercalate_singleton.symm⟩
  | uniforms => exact ⟨"\n", Or.inl rfl, rfl⟩
  | globals => exact ⟨"\n", Or.inl rfl, rfl⟩
  | functions => exact ⟨"\n\n", Or.inr rfl, rfl⟩
  | body => exact ⟨"\n\n", Or.inr rfl, rfl⟩
  | color => exact ⟨"\n", Or.inl rfl, String.intercalate_singleton.symm⟩

/-- No mark can start in a part, if none can start in the texts that it is joined from. -/
theorem unmarked_part {p : Program}
    (h : ∀ text ∈ p.version :: (p.uniforms ++ p.globals ++ p.functions ++ p.bodies),
      Text.Unmarked text.toList) (hmark : mark ≠ .color) :
    Text.Unmarked (p.part mark).toList := by
  obtain ⟨sep, hsep, hpart⟩ := p.exists_part_eq mark
  rw [hpart]
  refine .intercalate hsep fun text htext => ?_
  cases mark with
  | version => exact h text (by simp [List.mem_singleton.1 htext])
  | time =>
    obtain rfl := List.mem_singleton.1 htext
    decide +kernel
  | resolution =>
    obtain rfl := List.mem_singleton.1 htext
    decide +kernel
  | uniforms => exact h text (by simp [show text ∈ p.uniforms from htext])
  | globals => exact h text (by simp [show text ∈ p.globals from htext])
  | functions =>
    obtain ⟨function, hfunction, rfl⟩ := List.mem_map.1 (List.mem_filter.1 htext).1
    obtain ⟨front, back, -, -, hsplit⟩ := Text.exists_eq_append_trim function.toList
    rw [Text.trimmed, String.toList_ofList]
    refine (h function (by simp [hfunction])).mono ⟨front, back, ?_⟩
    rw [List.append_assoc, ← hsplit]
  | body => exact h text (by simp [show text ∈ p.bodies from htext])
  | color => exact absurd rfl hmark

/-! ## Replacing all marks -/

/-- The text of each mark while some are replaced and the others are not. -/
def halfway (p : Program) (done : List Mark) (mark : Mark) : String :=
  if mark ∈ done then p.part mark else mark.spelling

/-- **One kind of mark is replaced**, while the parts that already stand there hold no mark. -/
theorem replace_textOf (p : Program) {done : List Mark} (hmark : mark ∉ done)
    (hdone : ∀ m ∈ done, Text.Unmarked (p.part m).toList) (hpieces : isSpaced pieces = true) :
    p.put (textOf (p.halfway done) pieces) mark = textOf (p.halfway (mark :: done)) pieces := by
  rw [put, Text.replace, Text.replaceChars, ← String.toList_inj, String.toList_ofList]
  induction pieces with
  | nil => rfl
  | cons piece rest ih =>
    cases piece with
    | inl text =>
      simp only [isSpaced, Bool.and_eq_true, decide_eq_true_eq, bne_iff_ne] at hpieces
      obtain ⟨⟨htext, hlast⟩, hrest⟩ := hpieces
      rw [textOf_inl, textOf_inl, String.toList_append, String.toList_append,
        Text.replaceFrom_unmarked mark.braces_prefix_spelling _ htext (Or.inl hlast), ih hrest]
    | inr m =>
      simp only [isSpaced, Bool.and_eq_true, Option.any_eq_true, bne_iff_ne] at hpieces
      obtain ⟨⟨c, hopening, hc⟩, hrest⟩ := hpieces
      rw [textOf_inr, textOf_inr, String.toList_append, String.toList_append, ← ih hrest]
      by_cases hsame : m = mark
      · -- this mark
        subst hsame
        have hbefore : p.halfway done m = m.spelling := if_neg hmark
        have hafter : p.halfway (m :: done) m = p.part m := if_pos List.mem_cons_self
        rw [hbefore, hafter]
        exact Text.replaceFrom_mark (by simp [Mark.toList_spelling]) _ _
      · have hkept : p.halfway (mark :: done) m = p.halfway done m := by
          simp [halfway, hsame]
        rw [hkept]
        by_cases hm : m ∈ done
        · -- a part, which is followed by no brace
          have hpart : p.halfway done m = p.part m := if_pos hm
          have hhead : (textOf (p.halfway done) rest).toList.head? ≠ some '\x7b' := by
            rw [head?_textOf hopening]
            simpa using hc
          rw [hpart]
          exact Text.replaceFrom_unmarked mark.braces_prefix_spelling _ (hdone m hm) (Or.inr hhead)
        · -- a mark whose turn comes later
          have hspelling : p.halfway done m = m.spelling := if_neg hm
          rw [hspelling]
          exact replaceFrom_spelling hsame _ _

/-- The kinds of marks are replaced one after another. -/
theorem foldl_put (p : Program) {todo done : List Mark} (hnodup : (todo ++ done).Nodup)
    (hplain : ∀ m ∈ todo ++ done, Text.Unmarked (p.part m).toList)
    (hpieces : isSpaced pieces = true) :
    todo.foldl p.put (textOf (p.halfway done) pieces)
      = textOf (p.halfway (todo.reverse ++ done)) pieces := by
  induction todo generalizing done with
  | nil => rfl
  | cons mark todo ih =>
    have hperm : (todo ++ mark :: done).Perm (mark :: todo ++ done) := List.perm_middle
    have hmark : mark ∉ done := by
      intro hmem
      exact (List.nodup_cons.1 hnodup).1 (List.mem_append_right todo hmem)
    have hdone : ∀ m ∈ done, Text.Unmarked (p.part m).toList :=
      fun m hm => hplain m (List.mem_append_right _ hm)
    rw [List.foldl_cons, replace_textOf p hmark hdone hpieces,
      ih (hperm.nodup_iff.2 hnodup) fun m hm => hplain m (hperm.mem_iff.1 hm),
      List.reverse_cons, List.append_assoc, List.singleton_append]

theorem isSpaced_frame : isSpaced frame = true := by decide +kernel

/-- **All marks are replaced at once**, if no part but the colour has two braces in a row. -/
theorem text_eq {p : Program} (h : ∀ m ≠ .color, Text.Unmarked (p.part m).toList) :
    p.text = textOf p.part frame := by
  have hstart : Mark.spelling = p.halfway [] := by
    funext m
    rfl
  have hend : p.halfway (.color :: (Mark.all.dropLast.reverse ++ [])) = p.part := by
    funext m
    exact if_pos (by cases m <;> decide)
  have hplain : ∀ m ∈ Mark.all.dropLast ++ [], Text.Unmarked (p.part m).toList := by
    intro m hm
    refine h m fun hcolor => ?_
    subst hcolor
    revert hm
    decide
  have hall : Mark.all = Mark.all.dropLast ++ [.color] := rfl
  rw [text, hall, List.foldl_append, hstart, foldl_put p (by decide) hplain isSpaced_frame,
    List.foldl_cons, List.foldl_nil, replace_textOf p (by decide) ?_ isSpaced_frame, hend]
  intro m hm
  exact hplain m (by simpa using hm)

end Program

end ShaderGraph

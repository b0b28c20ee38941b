import ShaderGraph.Emit.Bindings
import Mathlib.Data.List.Chain
import Mathlib.Data.List.Forall2
import Mathlib.Data.List.Infix
import Mathlib.Data.List.TakeWhile

/-!
# Reading templates

A template is read at one place after the other. Where a dollar sign has a word behind it, the
longest placeholder that is written there becomes a hole; every other character is code.

What a placeholder is written with is said without the reader: its word and its name are words, and
a word that is known is no unknown one (`Placeholder.Writable`). At each place at most one of them
is the longest (`Placeholder.IsLongest.eq`), and at a dollar sign with a word character behind it
there is one. From these two facts, by one induction over the text (`parseChars_induction`), follows
that reading loses nothing, and that filling the holes changes the placeholders and nothing else.
-/

namespace ShaderGraph

/-! ## Placeholders as they are written -/

/-- At least one letter, digit or underscore, and nothing else. -/
def Text.IsWord (text : List Char) : Prop := text ≠ [] ∧ ∀ c ∈ text, isWordChar c = true

/-- A word ends where a character follows that belongs to no word. -/
theorem Text.takeWhile_word {word rest : List Char} (hword : ∀ c ∈ word, isWordChar c = true)
    (hrest : ∀ c ∈ rest.head?, isWordChar c = false) :
    (word ++ rest).takeWhile isWordChar = word := by
  rw [List.takeWhile_append_of_pos hword]
  cases rest with
  | nil => simp
  | cons c tail => simp [hrest c rfl]

namespace Placeholder

/-- The word behind the dollar sign. -/
def word : Placeholder → String
  | .input _ => "input"
  | .output _ => "output"
  | .param _ => "param"
  | .time => "time"
  | .resolution => "resolution"
  | .position => "position"
  | .uv => "uv"
  | .distance => "sdf_call"
  | .displacement => "displacement_at_p"
  | .unknown word => word

/-- The name behind the point. -/
def name? : Placeholder → Option String
  | .input port => some port
  | .output port => some port
  | .param name => some name
  | _ => none

/-- The words that stand for something by themselves. -/
def knownWords : List String :=
  ["time", "resolution", "position", "uv", "sdf_call", "displacement_at_p"]

/-- A placeholder that can stand in a template. -/
structure Writable (p : Placeholder) : Prop where
  word : Text.IsWord p.word.toList
  name : ∀ name ∈ p.name?, Text.IsWord name.toList
  unknown : ∀ word, p = .unknown word → word ∉ knownWords

/-- The longest placeholder that a text starts with. -/
structure IsLongest (p : Placeholder) (text : List Char) : Prop where
  writable : p.Writable
  leads : p.spelling.toList <+: text
  longest : ∀ q : Placeholder, q.Writable → q.spelling.toList <+: text →
    q.spelling.toList.length ≤ p.spelling.toList.length

variable {p q : Placeholder} {word name rest text : List Char}

/-- What follows the word of a placeholder. -/
def nameText (p : Placeholder) : List Char :=
  match p.name? with
  | some name => '.' :: name.toList
  | none => []

theorem toList_spelling (p : Placeholder) :
    p.spelling.toList = '$' :: (p.word.toList ++ p.nameText) := by
  cases p <;> simp [spelling, Placeholder.word, nameText, name?]

theorem nameText_of_some {name : String} (h : p.name? = some name) :
    p.nameText = '.' :: name.toList := by
  rw [nameText, h]

theorem nameText_of_none (h : p.name? = none) : p.nameText = [] := by
  rw [nameText, h]

/-- The name is set off from the word. -/
theorem head?_nameText (p : Placeholder) : ∀ c ∈ p.nameText.head?, Text.isWordChar c = false := by
  intro c hc
  cases hname : p.name? with
  | none => simp [nameText_of_none hname] at hc
  | some name =>
    rw [nameText_of_some hname] at hc
    obtain rfl : '.' = c := by simpa using hc
    decide

theorem Writable.not_dollar (h : p.Writable) : '$' ∉ p.word.toList ++ p.nameText := by
  have hword {text : List Char} (htext : Text.IsWord text) : '$' ∉ text := by
    intro hmem
    have hdollar := htext.2 '$' hmem
    revert hdollar
    decide
  intro hmem
  rcases List.mem_append.1 hmem with hmem | hmem
  · exact hword h.word hmem
  · cases hname : p.name? with
    | none => simp [nameText_of_none hname] at hmem
    | some name =>
      rw [nameText_of_some hname, List.mem_cons] at hmem
      rcases hmem with hmem | hmem
      · revert hmem
        decide
      · exact hword (h.name name hname) hmem

/-! ## The reader of one placeholder -/

theorem word_ofWord (word : List Char) : (ofWord word).word = String.ofList word := by
  unfold ofWord
  grind [Placeholder.word]

theorem name?_ofWord (word : List Char) : (ofWord word).name? = none := by
  unfold ofWord
  grind [name?]

theorem not_mem_knownWords_of_ofWord {w : String} (h : ofWord word = .unknown w) :
    w ∉ knownWords := by
  unfold ofWord at h
  grind [knownWords]

/-- A placeholder without a name is read off its word. -/
theorem ofWord_word (h : p.Writable) (hname : p.name? = none) : ofWord p.word.toList = p := by
  cases p with
  | input port => cases hname
  | output port => cases hname
  | param name => cases hname
  | unknown word =>
    have hfree := h.unknown word rfl
    simp only [Placeholder.word, ofWord, String.ofList_toList]
    grind [knownWords]
  | _ => simp [ofWord, Placeholder.word]

/-- A placeholder with a name is read off its word and its name. -/
theorem ofNamed?_eq_some_iff : ofNamed? word name = some p ↔
    name ≠ [] ∧ p.word = String.ofList word ∧ p.name? = some (String.ofList name) := by
  constructor
  · intro h
    unfold ofNamed? at h
    grind [Placeholder.word, name?]
  · rintro ⟨hne, hword, hname⟩
    cases p <;> simp [Placeholder.word, name?, ofNamed?, ← hword] at hname ⊢ <;> grind

/-- A word that takes a name along takes any. -/
theorem exists_ofNamed? (hword : p.word = String.ofList word) (hname : p.name?.isSome = true)
    (hne : name ≠ []) : ∃ q, ofNamed? word name = some q := by
  cases p with
  | input port => simp [ofNamed?, ← hword, Placeholder.word, hne]
  | output port => simp [ofNamed?, ← hword, Placeholder.word, hne]
  | param name => simp [ofNamed?, ← hword, Placeholder.word, hne]
  | _ => cases hname

/-- A placeholder is known by its word and its name. -/
theorem eq_of_word_eq (hp : p.Writable) (hq : q.Writable) (hword : p.word = q.word)
    (hname : p.name? = q.name?) : p = q := by
  cases h : p.name? with
  | none => rw [← ofWord_word hp h, hword, ofWord_word hq (hname ▸ h)]
  | some name =>
    have hne : name.toList ≠ [] := (hp.name name h).1
    have hread : ofNamed? p.word.toList name.toList = some p :=
      ofNamed?_eq_some_iff.2 ⟨hne, by simp, by simp [h]⟩
    have hread' : ofNamed? p.word.toList name.toList = some q :=
      ofNamed?_eq_some_iff.2 ⟨hne, by simp [hword], by simp [← hname, h]⟩
    exact Option.some.inj (hread.symm.trans hread')

theorem name?_eq_of_nameText_eq (h : p.nameText = q.nameText) : p.name? = q.name? := by
  unfold nameText at h
  cases hp : p.name? <;> cases hq : q.name? <;> simp_all [String.toList_inj]

/-- Placeholders that are written alike are the same. -/
theorem eq_of_spelling_eq (hp : p.Writable) (hq : q.Writable)
    (h : p.spelling.toList = q.spelling.toList) : p = q := by
  rw [toList_spelling, toList_spelling] at h
  have hparts := (List.cons.inj h).2
  have hword : p.word.toList = q.word.toList := by
    rw [← Text.takeWhile_word hp.word.2 p.head?_nameText, hparts,
      Text.takeWhile_word hq.word.2 q.head?_nameText]
  rw [hword] at hparts
  exact eq_of_word_eq hp hq (String.toList_inj.1 hword)
    (name?_eq_of_nameText_eq (List.append_cancel_left hparts))

/-- **No two placeholders are the longest at one place.** -/
theorem IsLongest.eq (hp : p.IsLongest text) (hq : q.IsLongest text) : p = q := by
  have hlength := le_antisymm (hq.longest p hp.writable hp.leads)
    (hp.longest q hq.writable hq.leads)
  refine eq_of_spelling_eq hp.writable hq.writable ?_
  exact (List.prefix_of_prefix_length_le hp.leads hq.leads hlength.le).eq_of_length hlength

/-- A word takes a name along, or it stands by itself. -/
theorem ofRest_cases (word rest : List Char) :
    (∃ tail, rest = '.' :: tail ∧
      ofNamed? word (tail.takeWhile Text.isWordChar) = some (ofRest word rest).1 ∧
      (ofRest word rest).2 = tail.dropWhile Text.isWordChar) ∨
    (ofRest word rest = (ofWord word, rest) ∧
      ∀ tail, rest = '.' :: tail → ofNamed? word (tail.takeWhile Text.isWordChar) = none) := by
  unfold ofRest
  split
  · rename_i tail
    cases hnamed : ofNamed? word (tail.takeWhile Text.isWordChar) with
    | some p => exact .inl ⟨tail, rfl, hnamed, rfl⟩
    | none =>
      refine .inr ⟨rfl, fun tail' htail => ?_⟩
      rwa [← (List.cons.inj htail).2]
  · rename_i hnone
    exact .inr ⟨rfl, fun tail htail => absurd htail (hnone tail)⟩

/-- What is read is what is written. -/
theorem spelling_ofRest (word rest : List Char) :
    (ofRest word rest).1.spelling.toList ++ (ofRest word rest).2 = '$' :: (word ++ rest) := by
  rw [toList_spelling]
  obtain ⟨tail, rfl, hnamed, hleft⟩ | ⟨hread, -⟩ := ofRest_cases word rest
  · obtain ⟨-, hword, hname⟩ := ofNamed?_eq_some_iff.1 hnamed
    simp [hword, nameText_of_some hname, hleft, List.takeWhile_append_dropWhile]
  · simp [hread, word_ofWord, nameText_of_none (name?_ofWord word)]

theorem writable_ofRest (hword : Text.IsWord word) : (ofRest word rest).1.Writable := by
  obtain ⟨tail, rfl, hnamed, -⟩ | ⟨hread, -⟩ := ofRest_cases word rest
  · obtain ⟨hne, hword', hname⟩ := ofNamed?_eq_some_iff.1 hnamed
    refine ⟨by simpa [hword'] using hword, fun name hmem => ?_, fun w hw => ?_⟩
    · obtain rfl := Option.some.inj (hname.symm.trans hmem)
      rw [String.toList_ofList]
      exact ⟨hne, fun c hc => List.mem_takeWhile_imp hc⟩
    · rw [hw] at hname
      cases hname
  · rw [hread]
    refine ⟨by simpa [word_ofWord] using hword, fun name hmem => ?_, fun w hw => ?_⟩
    · rw [name?_ofWord] at hmem
      cases hmem
    · exact not_mem_knownWords_of_ofWord hw

/-- A word that a text starts with lies in its first run of word characters. -/
theorem length_word_le {back : List Char} (hword : Text.IsWord word)
    (hrest : ∀ c ∈ rest.head?, Text.isWordChar c = false) (hq : q.Writable)
    (h : q.word.toList ++ back = word ++ rest) : q.word.toList.length ≤ word.length := by
  have hrun := congrArg (List.takeWhile Text.isWordChar) h
  rw [List.takeWhile_append_of_pos hq.word.2, Text.takeWhile_word hword.2 hrest] at hrun
  rw [← hrun, List.length_append]
  exact Nat.le_add_right _ _

/-- A name that a text goes on with lies in the run of word characters behind the point. -/
theorem length_named_le {back : List Char} {name : String} (hq : q.Writable)
    (hword : q.word.toList = word) (hname : q.name? = some name) :
    (word ++ '.' :: name.toList).length + 1
      ≤ (ofRest word ('.' :: (name.toList ++ back))).1.spelling.toList.length := by
  have hletters := (hq.name name hname).2
  obtain ⟨tail, htail, -, hleft⟩ | ⟨-, hnone⟩ := ofRest_cases word ('.' :: (name.toList ++ back))
  · obtain rfl := (List.cons.inj htail).2
    have hlength := congrArg List.length (spelling_ofRest word ('.' :: (name.toList ++ back)))
    rw [hleft, List.dropWhile_append_of_pos hletters] at hlength
    have hle := (List.dropWhile_sublist Text.isWordChar (l := back)).length_le
    simp only [List.length_append, List.length_cons] at hlength ⊢
    omega
  · -- the word takes a name along, so it takes this one
    have hne : (name.toList ++ back).takeWhile Text.isWordChar ≠ [] := by
      rw [List.takeWhile_append_of_pos hletters]
      simp [(hq.name name hname).1]
    have htakes : q.word = String.ofList word := by rw [← hword, String.ofList_toList]
    obtain ⟨r, hr⟩ := exists_ofNamed? htakes (by simp [hname]) hne
    rw [hnone _ rfl] at hr
    cases hr

/-- No placeholder goes on behind what is read. -/
theorem length_spelling_le (hword : Text.IsWord word)
    (hrest : ∀ c ∈ rest.head?, Text.isWordChar c = false) (hq : q.Writable)
    (hleads : q.spelling.toList <+: '$' :: (word ++ rest)) :
    q.spelling.toList.length ≤ (ofRest word rest).1.spelling.toList.length := by
  obtain ⟨back, hback⟩ := hleads
  rw [toList_spelling, List.cons_append, List.append_assoc] at hback
  have hparts := (List.cons.inj hback).2
  rw [toList_spelling q, List.length_cons]
  cases hname : q.name? with
  | none =>
    have hle := length_word_le hword hrest hq hparts
    have hlength := congrArg List.length (spelling_ofRest word rest)
    have hleft := length_ofRest word rest
    simp only [List.length_append, List.length_cons] at hlength
    rw [nameText_of_none hname, List.append_nil]
    omega
  | some name =>
    rw [nameText_of_some hname, List.cons_append] at hparts
    have hsame : q.word.toList = word := by
      have hrun := congrArg (List.takeWhile Text.isWordChar) hparts
      rwa [Text.takeWhile_word hword.2 hrest, Text.takeWhile_word hq.word.2 (by simp; decide)]
        at hrun
    rw [hsame] at hparts
    obtain rfl := List.append_cancel_left hparts
    rw [nameText_of_some hname, hsame]
    exact length_named_le hq hsame hname

/-- **What is read is the longest placeholder.** -/
theorem isLongest_ofRest (hword : Text.IsWord word)
    (hrest : ∀ c ∈ rest.head?, Text.isWordChar c = false) :
    (ofRest word rest).1.IsLongest ('$' :: (word ++ rest)) where
  writable := writable_ofRest hword
  leads := ⟨_, spelling_ofRest word rest⟩
  longest _ hq hleads := length_spelling_le hword hrest hq hleads

end Placeholder

/-! ## Reading a text -/

/-- Whether a placeholder starts here: a dollar sign with a word character behind it. -/
def startsHole : List Char → Bool
  | c :: d :: _ => c == '$' && Text.isWordChar d
  | _ => false

/-- A text in which no placeholder starts. -/
def HoleFree (text : List Char) : Prop := ∀ c, Text.isWordChar c = true → ¬['$', c] <:+: text

variable {c : Char} {rest text : List Char}

theorem startsHole_iff :
    startsHole text = true ↔ ∃ c, Text.isWordChar c = true ∧ ['$', c] <+: text := by
  constructor
  · intro h
    rcases text with _ | ⟨c, _ | ⟨d, more⟩⟩
    · cases h
    · cases h
    · obtain ⟨hc, hd⟩ := Bool.and_eq_true_iff.1 h
      obtain rfl := beq_iff_eq.1 hc
      exact ⟨d, hd, more, rfl⟩
  · rintro ⟨c, hc, more, rfl⟩
    exact hc

theorem startsHole_of_ne (h : c ≠ '$') : startsHole (c :: rest) = false := by
  rcases rest with _ | ⟨d, more⟩
  · rfl
  · simp [startsHole, h]

theorem startsHole_mono {front : List Char} (hleads : front <+: text)
    (h : startsHole text = false) : startsHole front = false := by
  rw [← Bool.not_eq_true] at h ⊢
  intro hfront
  obtain ⟨c, hc, hpair⟩ := startsHole_iff.1 hfront
  exact h (startsHole_iff.2 ⟨c, hc, hpair.trans hleads⟩)

theorem holeFree_nil : HoleFree [] := by
  intro c _ hinfix
  cases List.eq_nil_of_infix_nil hinfix

theorem holeFree_cons_iff :
    HoleFree (c :: rest) ↔ startsHole (c :: rest) = false ∧ HoleFree rest := by
  rw [← Bool.not_eq_true, startsHole_iff]
  simp only [HoleFree, List.infix_cons_iff]
  grind

theorem startsHole_dollar :
    startsHole ('$' :: rest) = true ↔ rest.takeWhile Text.isWordChar ≠ [] := by
  cases rest with
  | nil => simp [startsHole]
  | cons c tail => cases hc : Text.isWordChar c <;> simp [startsHole, hc]

theorem exists_dollar_of_startsHole (h : startsHole text = true) : ∃ rest, text = '$' :: rest := by
  obtain ⟨c, -, more, rfl⟩ := startsHole_iff.1 h
  exact ⟨c :: more, rfl⟩

/-- A placeholder stands only where one starts. -/
theorem Placeholder.IsLongest.startsHole {p : Placeholder} (h : p.IsLongest text) :
    startsHole text = true := by
  obtain ⟨back, rfl⟩ := h.leads
  obtain ⟨hne, hletters⟩ := h.writable.word
  obtain ⟨c, more, hword⟩ := List.exists_cons_of_ne_nil hne
  rw [toList_spelling, hword]
  exact hletters c (hword ▸ List.mem_cons_self)

/-- Whether a piece is code. -/
def Piece.isCode : Piece → Bool
  | .code _ => true
  | .hole _ => false

namespace Template

open Placeholder (IsLongest)

/-- Where a placeholder starts, the longest one is a hole. -/
theorem parseChars_of_startsHole (h : startsHole text = true) :
    ∃ p rest, text = p.spelling.toList ++ rest ∧ IsLongest p text ∧
      parseChars text = .hole p :: parseChars rest := by
  obtain ⟨rest, rfl⟩ := exists_dollar_of_startsHole h
  have hne := startsHole_dollar.1 h
  let word := rest.takeWhile Text.isWordChar
  let behind := rest.dropWhile Text.isWordChar
  have hsplit : rest = word ++ behind := List.takeWhile_append_dropWhile.symm
  have hword : Text.IsWord word := ⟨hne, fun c hc => List.mem_takeWhile_imp hc⟩
  have hbehind : ∀ c ∈ behind.head?, Text.isWordChar c = false := by
    intro c hc
    have hstop := List.head?_dropWhile_not Text.isWordChar rest
    rwa [show (rest.dropWhile Text.isWordChar).head? = some c from hc] at hstop
  refine ⟨(Placeholder.ofRest word behind).1, (Placeholder.ofRest word behind).2, ?_, ?_,
    parseChars_dollar hne⟩
  · rw [Placeholder.spelling_ofRest, ← hsplit]
  · rw [hsplit]
    exact Placeholder.isLongest_ofRest hword hbehind

/-- Where none starts, a character is code. -/
theorem parseChars_of_not_startsHole (h : startsHole (c :: rest) = false) :
    parseChars (c :: rest) = consChar c (parseChars rest) := by
  rw [parseChars, if_neg]
  rintro ⟨rfl, hne⟩
  rw [startsHole_dollar.2 hne] at h
  cases h

/-- Texts as they are read: what holds of the empty text, and goes on holding with a placeholder or
with a character of code in front, holds of every text. -/
theorem parseChars_induction {motive : List Char → Template → Prop} (nil : motive [] [])
    (hole : ∀ (p : Placeholder) (rest : List Char), IsLongest p (p.spelling.toList ++ rest) →
      motive rest (parseChars rest) →
      motive (p.spelling.toList ++ rest) (.hole p :: parseChars rest))
    (code : ∀ (c : Char) (rest : List Char), startsHole (c :: rest) = false →
      motive rest (parseChars rest) → motive (c :: rest) (consChar c (parseChars rest)))
    (text : List Char) : motive text (parseChars text) := by
  induction hlength : text.length using Nat.strongRecOn generalizing text with
  | ind length ih =>
    cases text with
    | nil =>
      rw [parseChars_nil]
      exact nil
    | cons c rest =>
      cases hstarts : startsHole (c :: rest) with
      | true =>
        obtain ⟨p, behind, htext, hlongest, hread⟩ := parseChars_of_startsHole hstarts
        rw [hread, htext]
        rw [htext] at hlongest hlength
        rw [Placeholder.toList_spelling] at hlength
        exact hole p behind hlongest (ih _ (by simp at hlength; omega) behind rfl)
      | false =>
        rw [parseChars_of_not_startsHole hstarts]
        exact code c rest hstarts (ih _ (by simp at hlength; omega) rest rfl)

/-! ## What is read -/

/-- The text of a template whose holes are filled, the first with what comes at a number, the next
with what comes at the number after it. -/
def renderFrom (resolve : Nat → Placeholder → List Char) (n : Nat) : Template → List Char
  | [] => []
  | .code text :: rest => text ++ renderFrom resolve n rest
  | .hole p :: rest => resolve n p ++ renderFrom resolve (n + 1) rest

variable {resolve : Nat → Placeholder → List Char} {n : Nat}

theorem spelling_eq_renderFrom (t : Template) (n : Nat) :
    t.spelling = t.renderFrom (fun _ p => p.spelling.toList) n := by
  induction t generalizing n with
  | nil => rfl
  | cons piece rest ih => cases piece <;> simp [renderFrom, ← ih, spelling]

theorem renderFrom_consChar (t : Template) :
    renderFrom resolve n (consChar c t) = c :: renderFrom resolve n t := by
  rcases t with _ | ⟨piece, rest⟩
  · rfl
  · cases piece <;> rfl

/-- **Reading loses nothing.** -/
theorem spelling_parseChars (text : List Char) : (parseChars text).spelling = text := by
  refine parseChars_induction (motive := fun text t => t.spelling = text) ?_ ?_ ?_ text
  · rfl
  · intro p rest _ ih
    exact congrArg (p.spelling.toList ++ ·) ih
  · intro c rest _ ih
    rw [spelling_eq_renderFrom _ 0, renderFrom_consChar, ← spelling_eq_renderFrom, ih]

theorem code_mem_consChar {code : List Char} {t : Template} (h : .code code ∈ consChar c t) :
    (∃ more, code = c :: more ∧ more <+: t.spelling ∧ (more = [] ∨ .code more ∈ t)) ∨
      .code code ∈ t := by
  rcases t with _ | ⟨⟨first⟩ | ⟨p⟩, rest⟩
  · obtain rfl : code = [c] := by simpa [consChar] using h
    exact .inl ⟨[], rfl, List.nil_prefix, .inl rfl⟩
  · rcases List.mem_cons.1 h with h | h
    · obtain rfl := Piece.code.inj h
      exact .inl ⟨first, rfl, List.prefix_append _ _, .inr List.mem_cons_self⟩
    · exact .inr (List.mem_cons_of_mem _ h)
  · rcases List.mem_cons.1 h with h | h
    · obtain rfl := Piece.code.inj h
      exact .inl ⟨[], rfl, List.nil_prefix, .inl rfl⟩
    · exact .inr h

/-- No placeholder is left in the code. -/
theorem holeFree_of_code_mem (text : List Char) :
    ∀ code, .code code ∈ parseChars text → HoleFree code := by
  refine parseChars_induction (motive := fun _ t => ∀ code, .code code ∈ t → HoleFree code)
    ?_ ?_ ?_ text
  · intro code hcode
    cases hcode
  · intro p rest _ ih code hcode
    rcases List.mem_cons.1 hcode with hcode | hcode
    · cases hcode
    · exact ih code hcode
  · intro c rest hstarts ih code hcode
    obtain ⟨more, rfl, hleads, hmore⟩ | hcode := code_mem_consChar hcode
    · rw [spelling_parseChars] at hleads
      refine holeFree_cons_iff.2 ⟨startsHole_mono ((List.prefix_cons_inj c).2 hleads) hstarts, ?_⟩
      rcases hmore with rfl | hmore
      · exact holeFree_nil
      · exact ih more hmore
    · exact ih code hcode

/-- Behind code comes no code. -/
def AlternatesCode (t : Template) : Prop := t.IsChain fun a b => a.isCode = true → b.isCode = false

theorem alternatesCode_consChar {t : Template} (h : t.AlternatesCode) :
    (consChar c t).AlternatesCode := by
  rcases t with _ | ⟨⟨first⟩ | ⟨p⟩, rest⟩
  · exact .singleton _
  · exact List.IsChain.cons_of_imp (fun _ hnext _ => hnext rfl) h
  · exact List.isChain_cons_cons.2 ⟨fun _ => rfl, h⟩

/-- The code between two holes is one piece. -/
theorem alternatesCode_parseChars (text : List Char) : (parseChars text).AlternatesCode := by
  refine parseChars_induction (motive := fun _ t => t.AlternatesCode) ?_ ?_ ?_ text
  · exact .nil
  · intro p rest _ ih
    exact List.IsChain.cons ih fun _ _ hcode => by cases hcode
  · intro c rest _ ih
    exact alternatesCode_consChar ih

/-- The places of a text at which a placeholder starts, in order: at each the text from there on. -/
def starts (text : List Char) : List (List Char) := text.tails.filter startsHole

theorem starts_of_startsHole (h : startsHole (c :: rest) = true) :
    starts (c :: rest) = (c :: rest) :: starts rest := by
  rw [starts, List.tails_cons, List.filter_cons_of_pos h]
  rfl

theorem starts_of_not_startsHole (h : startsHole (c :: rest) = false) :
    starts (c :: rest) = starts rest := by
  rw [starts, List.tails_cons, List.filter_cons_of_neg (by simp [h])]
  rfl

/-- No placeholder starts without a dollar sign. -/
theorem starts_append {front : List Char} (h : '$' ∉ front) (rest : List Char) :
    starts (front ++ rest) = starts rest := by
  induction front with
  | nil => rfl
  | cons c front ih =>
    obtain ⟨hc, hfront⟩ := not_or.1 (List.mem_cons.not.1 h)
    rw [List.cons_append, starts_of_not_startsHole (startsHole_of_ne (Ne.symm hc)), ih hfront]

theorem placeholders_consChar (t : Template) : (consChar c t).placeholders = t.placeholders := by
  rcases t with _ | ⟨⟨first⟩ | ⟨p⟩, rest⟩ <;> rfl

/-- Each place at which a placeholder starts gives one hole. -/
theorem forall₂_placeholders (text : List Char) :
    List.Forall₂ IsLongest (parseChars text).placeholders (starts text) := by
  refine parseChars_induction
    (motive := fun text t => List.Forall₂ IsLongest t.placeholders (starts text)) ?_ ?_ ?_ text
  · exact .nil
  · intro p rest hlongest ih
    have hfree := hlongest.writable.not_dollar
    have hstarts := hlongest.startsHole
    rw [Placeholder.toList_spelling, List.cons_append] at hlongest hstarts ⊢
    rw [starts_of_startsHole hstarts, starts_append hfree]
    exact .cons hlongest ih
  · intro c rest hstarts ih
    rw [placeholders_consChar, starts_of_not_startsHole hstarts]
    exact ih

/-- A text and what becomes of it when each placeholder in it gives way to another text and all else
stays. The placeholders are counted from a number on. -/
inductive Replaced (resolve : Nat → Placeholder → List Char) : Nat → List Char → List Char → Prop
    where
  | verbatim {n : Nat} {text : List Char} (hfree : HoleFree text) : Replaced resolve n text text
  | placeholder {n : Nat} {front back filled : List Char} {p : Placeholder}
      (hfront : HoleFree front) (hlongest : IsLongest p (p.spelling.toList ++ back))
      (hback : Replaced resolve (n + 1) back filled) :
      Replaced resolve n (front ++ (p.spelling.toList ++ back)) (front ++ (resolve n p ++ filled))

theorem Replaced.cons {filled : List Char} (hstarts : startsHole (c :: rest) = false)
    (h : Replaced resolve n rest filled) : Replaced resolve n (c :: rest) (c :: filled) := by
  cases h with
  | verbatim hfree => exact .verbatim (holeFree_cons_iff.2 ⟨hstarts, hfree⟩)
  | @placeholder _ front back filled p hfront hlongest hback =>
    have hfront' : HoleFree (c :: front) :=
      holeFree_cons_iff.2 ⟨startsHole_mono (List.prefix_append (c :: front) _) hstarts, hfront⟩
    exact .placeholder hfront' hlongest hback

/-- **Filling the holes replaces the placeholders.** -/
theorem replaced_renderFrom (resolve : Nat → Placeholder → List Char) (n : Nat)
    (text : List Char) : Replaced resolve n text ((parseChars text).renderFrom resolve n) := by
  refine parseChars_induction
    (motive := fun text t => ∀ n, Replaced resolve n text (t.renderFrom resolve n)) ?_ ?_ ?_ text n
  · intro n
    exact .verbatim holeFree_nil
  · intro p rest hlongest ih n
    show Replaced resolve n ([] ++ (p.spelling.toList ++ rest)) ([] ++ _)
    exact .placeholder holeFree_nil hlongest (ih (n + 1))
  · intro c rest hstarts ih n
    rw [renderFrom_consChar]
    exact (ih n).cons hstarts

/-- Bindings fill the holes with what they say of each. -/
theorem toList_value_fill (b : Bindings) (t : Template) (n : Nat) :
    (b.fill t).value.toList = t.renderFrom (fun _ p => (b.textFor p).toList) n := by
  rw [Bindings.fill, String.toList_ofList]
  induction t generalizing n with
  | nil => rfl
  | cons piece rest ih => cases piece <;> simp [renderFrom, ← ih, Bindings.textOf]

theorem forall₂_iff_eq_placeholders (text : List Char) (found : List Placeholder) :
    List.Forall₂ IsLongest found (starts text) ↔ found = (parseChars text).placeholders := by
  constructor
  · intro h
    have hunique : Relator.LeftUnique IsLongest := fun _ _ _ hp hq => hp.eq hq
    exact List.left_unique_forall₂' hunique h (forall₂_placeholders text)
  · rintro rfl
    exact forall₂_placeholders text

/-- **Templates are read without loss.** Written out again, a template is its source. No placeholder
is left in the code, and code is cut nowhere but at holes. The holes are the longest placeholders of
the source, one for each place at which one starts, in order. Filled with any texts, whatever comes
at each hole, they give the source with its placeholders replaced and all else as it was; so do
bindings. -/
theorem parse_lossless (source : String) :
    (parse source).spelling = source.toList ∧
    (∀ code, .code code ∈ parse source → HoleFree code) ∧
    (parse source).AlternatesCode ∧
    (∀ found, List.Forall₂ IsLongest found (starts source.toList)
      ↔ found = (parse source).placeholders) ∧
    (∀ resolve n, Replaced resolve n source.toList ((parse source).renderFrom resolve n)) ∧
    ∀ b : Bindings, Replaced (fun _ p => (b.textFor p).toList) 0 source.toList
      (b.fill (parse source)).value.toList := by
  refine ⟨spelling_parseChars _, holeFree_of_code_mem _, alternatesCode_parseChars _,
    forall₂_iff_eq_placeholders _, fun resolve n => replaced_renderFrom resolve n _, fun b => ?_⟩
  rw [toList_value_fill b _ 0]
  exact replaced_renderFrom _ 0 _

/-- A dollar sign without a word is code, and so is a point without a name. -/
example : parse "$$uv.$input.$param.a_1é" = [.code ['$'], .hole .uv, .code ['.'],
    .hole (.unknown "input"), .code ['.'], .hole (.param "a_1"), .code ['é']] := by
  decide +kernel

end Template

end ShaderGraph

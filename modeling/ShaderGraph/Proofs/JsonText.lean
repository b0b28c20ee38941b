import ShaderGraph.Proofs.Numerals

/-!
# Values read back from their text

The compact text of a value is the value again (`Json.parse?_text`), whatever it nests and whatever
its texts hold. Only its numerals have to be proper, for a numeral with a leading zero or an empty
exponent cannot be read.

The machine that reads is in a state, so what a text does is said for every state in which a value
may come: it is used up, the value is complete, and what was open stays open (`ReadsAs`). A numeral
ends where no character could go on with it, and in a text without blanks that is a comma, a closing
bracket or the end (`Ends`).
-/

namespace ShaderGraph.Json

/-! ## Numerals -/

/-- What follows a numeral cannot belong to it. -/
def Ends (rest : List Char) : Prop :=
  ∀ c ∈ rest.head?, c.isDigit = false ∧ c ≠ '.' ∧ c ≠ 'e' ∧ c ≠ 'E'

theorem ends_nil : Ends [] := by
  intro c hc
  cases hc

theorem ends_cons {c : Char} (h : c.isDigit = false ∧ c ≠ '.' ∧ c ≠ 'e' ∧ c ≠ 'E')
    (rest : List Char) : Ends (c :: rest) := by
  intro c' hc
  obtain rfl : c = c' := Option.some_inj.1 hc
  exact h

variable {digits rest : List Char}

theorem wholePart_append (hdigits : Numeral.Leads digits)
    (hrest : ∀ c ∈ rest.head?, c.isDigit = false) :
    wholePart (digits ++ rest) = some (digits, rest) := by
  obtain ⟨htake, hdrop⟩ := takeWhile_digits hdigits.isDigit hrest
  obtain ⟨c, tail, rfl⟩ := List.exists_cons_of_ne_nil hdigits.ne_nil
  by_cases hzero : c = '0'
  · subst hzero
    obtain rfl : tail = [] := (List.cons.inj (hdigits.zero rfl)).2
    rfl
  · rw [List.cons_append] at htake hdrop ⊢
    rw [wholePart]
    · simp [htake, hdrop]
    · rintro more hmore
      exact hzero (List.cons.inj hmore).1

/-- The fraction of a numeral as it is written. -/
theorem fractionPart_append (hdigits : ∀ c ∈ digits, c.isDigit = true)
    (hrest : ∀ c ∈ rest.head?, c.isDigit = false ∧ c ≠ '.') :
    fractionPart ((if digits.isEmpty then [] else '.' :: digits) ++ rest)
      = some (digits, rest) := by
  cases digits with
  | nil =>
    cases rest with
    | nil => rfl
    | cons c tail =>
      have hc : c ≠ '.' := (hrest c rfl).2
      simp [fractionPart, hc]
  | cons d tail =>
    obtain ⟨htake, hdrop⟩ := takeWhile_digits hdigits fun c hc => (hrest c hc).1
    rw [List.cons_append] at htake hdrop
    simp [fractionPart, htake, hdrop]

/-- The exponent of a numeral as it is written. -/
theorem exponentPart_append {exponent : List Char} (h : exponent = [] ∨ Numeral.Signed exponent)
    (hrest : Ends rest) :
    exponentPart ((if exponent.isEmpty then [] else 'e' :: exponent) ++ rest)
      = some (exponent, rest) := by
  rcases h with rfl | ⟨sign, digits, rfl, hsign, hne, hdigits⟩
  · cases rest with
    | nil => rfl
    | cons c tail =>
      obtain ⟨-, -, he, hE⟩ := hrest c rfl
      simp [exponentPart, he, hE]
  · obtain ⟨htake, hdrop⟩ := takeWhile_digits hdigits fun c hc => (hrest c hc).1
    have hsign' : (sign == '+' || sign == '-') = true := by simpa using hsign
    simp [exponentPart, exponentDigits, hsign', htake, hdrop, hne]

theorem head?_exponentText {exponent : List Char} (hrest : Ends rest) :
    ∀ c ∈ ((if exponent.isEmpty then [] else 'e' :: exponent) ++ rest).head?,
      c.isDigit = false ∧ c ≠ '.' := by
  intro c hc
  split at hc
  · obtain ⟨hdigit, hpoint, -⟩ := hrest c hc
    exact ⟨hdigit, hpoint⟩
  · obtain rfl : 'e' = c := Option.some_inj.1 hc
    decide

/-- **A proper numeral is read up to its end.** -/
theorem numeral_append {n : Numeral} (h : n.Proper) (hrest : Ends rest) :
    numeral (n.text ++ rest) = some (n, rest) := by
  obtain ⟨negative, whole, fraction, exponent⟩ := n
  obtain ⟨hwhole, hfraction, hexponent⟩ := h
  let exponentText := (if exponent.isEmpty then [] else 'e' :: exponent) ++ rest
  let fractionText := (if fraction.isEmpty then [] else '.' :: fraction) ++ exponentText
  have hbehind : ∀ c ∈ exponentText.head?, c.isDigit = false ∧ c ≠ '.' :=
    head?_exponentText hrest
  have hpoint : ∀ c ∈ fractionText.head?, c.isDigit = false := by
    intro c hc
    cases fraction with
    | nil => exact (hbehind c hc).1
    | cons d tail =>
      obtain rfl : '.' = c := Option.some_inj.1 hc
      rfl
  have hunsigned : unsignedNumeral negative (whole ++ fractionText)
      = some (⟨negative, whole, fraction, exponent⟩, rest) := by
    have h1 : wholePart (whole ++ fractionText) = some (whole, fractionText) :=
      wholePart_append hwhole hpoint
    have h2 : fractionPart fractionText = some (fraction, exponentText) :=
      fractionPart_append hfraction hbehind
    have h3 : exponentPart exponentText = some (exponent, rest) :=
      exponentPart_append hexponent hrest
    simp [unsignedNumeral, h1, h2, h3]
  have htext : Numeral.text ⟨negative, whole, fraction, exponent⟩ ++ rest
      = (if negative then ['-'] else []) ++ (whole ++ fractionText) := by
    simp only [Numeral.text, fractionText, exponentText, List.append_assoc]
  rw [htext]
  cases negative with
  | true => exact hunsigned
  | false =>
    obtain ⟨c, tail, rfl⟩ := List.exists_cons_of_ne_nil hwhole.ne_nil
    rw [if_neg Bool.false_ne_true, List.nil_append, List.cons_append, numeral]
    · exact hunsigned
    · -- a digit is no minus sign
      intro more hmore
      have hdigit := hwhole.isDigit c List.mem_cons_self
      rw [(List.cons.inj hmore).1] at hdigit
      cases hdigit

/-- A numeral starts with a digit or a minus sign. -/
theorem exists_text_eq {n : Numeral} (h : n.Proper) :
    ∃ c tail, n.text = c :: tail ∧ (c.isDigit = true ∨ c = '-') := by
  obtain ⟨c, tail, hwhole⟩ := List.exists_cons_of_ne_nil h.whole.ne_nil
  cases hsign : n.negative with
  | true => exact ⟨'-', _, by simp [Numeral.text, hsign]; rfl, .inr rfl⟩
  | false =>
    refine ⟨c, _, by simp [Numeral.text, hsign, hwhole]; rfl, .inl ?_⟩
    exact h.whole.isDigit c (hwhole ▸ List.mem_cons_self)

/-- What starts like a numeral is read as one. -/
theorem token_of_numeral {c : Char} (h : c.isDigit = true ∨ c = '-') (tail : List Char) :
    token (c :: tail) = (numeral (c :: tail)).map fun r => (.scalar (.number r.1), r.2) := by
  unfold token
  split
  case h_11 => rfl
  all_goals
    rename_i heq
    obtain ⟨rfl, -⟩ := List.cons.inj heq
    rcases h with h | h <;> cases h

/-! ## Strings -/

theorem hexValue?_hexDigit {n : ℕ} (h : n < 16) : hexValue? (hexDigit n) = some n := by
  revert n
  decide

theorem unit?_control {n : ℕ} (h : n < 0x20) :
    unit? '0' '0' (hexDigit (n / 16)) (hexDigit (n % 16)) = some n := by
  have hzero : hexValue? '0' = some 0 := rfl
  rw [unit?, hzero, hexValue?_hexDigit (by omega), hexValue?_hexDigit (by omega)]
  simp only [Option.some.injEq]
  omega

/-- A character is written with a letter behind a backslash, by its number, or as it is. -/
theorem escape_cases (c : Char) :
    (∃ e, escape c = ['\\', e] ∧ shortEscape? e = some c ∧ e ≠ 'u')
      ∨ (c.toNat < 0x20 ∧ escape c
        = ['\\', 'u', '0', '0', hexDigit (c.toNat / 16), hexDigit (c.toNat % 16)])
      ∨ (escape c = [c] ∧ c ≠ '"' ∧ c ≠ '\\' ∧ ¬ c.toNat < 0x20) := by
  by_cases hquote : c = '"'
  · exact .inl ⟨'"', by rw [hquote]; rfl, by rw [hquote]; rfl, by decide⟩
  by_cases hslash : c = '\\'
  · exact .inl ⟨'\\', by rw [hslash]; rfl, by rw [hslash]; rfl, by decide⟩
  by_cases hline : c = '\n'
  · exact .inl ⟨'n', by rw [hline]; rfl, by rw [hline]; rfl, by decide⟩
  by_cases hreturn : c = '\r'
  · exact .inl ⟨'r', by rw [hreturn]; rfl, by rw [hreturn]; rfl, by decide⟩
  by_cases htab : c = '\t'
  · exact .inl ⟨'t', by rw [htab]; rfl, by rw [htab]; rfl, by decide⟩
  by_cases hback : c = '\x08'
  · exact .inl ⟨'b', by rw [hback]; rfl, by rw [hback]; rfl, by decide⟩
  by_cases hfeed : c = '\x0c'
  · exact .inl ⟨'f', by rw [hfeed]; rfl, by rw [hfeed]; rfl, by decide⟩
  rw [escape, if_neg hquote, if_neg hslash, if_neg hline, if_neg hreturn, if_neg htab,
    if_neg hback, if_neg hfeed]
  by_cases hcontrol : c.toNat < 0x20
  · exact .inr (.inl ⟨hcontrol, if_pos hcontrol⟩)
  · exact .inr (.inr ⟨if_neg hcontrol, hquote, hslash, hcontrol⟩)

/-- **What a character is written as is read as that character.** -/
theorem stringUnits_escape (c : Char) (rest : List Char) : stringUnits (escape c ++ rest)
    = (stringUnits rest).map fun r => (c.toNat :: r.1, r.2) := by
  rcases escape_cases c with ⟨e, hescape, he, hne⟩ | ⟨hcontrol, hescape⟩
    | ⟨hescape, hquote, hslash, hcontrol⟩
  · rw [hescape, List.cons_append, List.singleton_append, stringUnits, he]
    · cases stringUnits rest <;> rfl
    · intro _ _ _ _ _ hu
      exact absurd hu hne
  · rw [hescape]
    simp only [List.cons_append, List.nil_append]
    rw [stringUnits, unit?_control hcontrol]
    cases stringUnits rest <;> rfl
  · rw [hescape, List.singleton_append, stringUnits]
    · simp only [hcontrol, hslash, decide_false, Bool.or_false, Bool.false_eq_true, if_false]
      cases stringUnits rest <;> rfl
    · exact hquote
    · intro _ _ _ _ _ hu
      exact absurd hu hslash
    · intro _ _ hu
      exact absurd hu hslash

theorem stringUnits_text (text rest : List Char) :
    stringUnits (text.flatMap escape ++ '"' :: rest) = some (text.map Char.toNat, rest) := by
  induction text with
  | nil => rfl
  | cons c tail ih =>
    rw [List.flatMap_cons, List.append_assoc, stringUnits_escape, ih]
    rfl

/-- No character is half of a surrogate pair. -/
theorem not_half (c : Char) : isHighHalf c.toNat = false ∧ isLowHalf c.toNat = false := by
  have hvalid : c.toNat < 0xd800 ∨ 0xdfff < c.toNat ∧ c.toNat < 0x110000 := c.valid
  simp only [isHighHalf, isLowHalf, Bool.and_eq_false_iff, decide_eq_false_iff_not]
  omega

theorem joinUnits_text (text : List Char) : joinUnits (text.map Char.toNat) = some text := by
  induction text with
  | nil => rfl
  | cons c tail ih =>
    obtain ⟨hhigh, hlow⟩ := not_half c
    cases tail with
    | nil => simp [joinUnits, hhigh, hlow, Char.ofNat_toNat]
    | cons c' more =>
      rw [List.map_cons] at ih
      simp [joinUnits, hhigh, hlow, ih, Char.ofNat_toNat]

/-- A string literal is one token, also where it denotes no text. -/
theorem token_quoted (text : Option String) (rest : List Char) :
    token (quoted text ++ rest) = some (.text text, rest) := by
  cases text with
  | none => rfl
  | some text =>
    have htoken : ∀ tail, token ('"' :: tail) = (stringUnits tail).map fun r =>
        (.text ((joinUnits r.1).map String.ofList), r.2) := fun _ => rfl
    rw [quoted, List.cons_append, List.append_assoc, List.singleton_append, htoken,
      stringUnits_text, Option.map_some, joinUnits_text, Option.map_some, String.ofList_toList]

/-! ## The machine -/

/-- Runs the machine over the tokens of a text. -/
def readFrom (r : Reading) (text : List Char) : Option Reading := (tokens text).bind r.run

/-- A token moves the machine before the rest of the text does. -/
theorem readFrom_token {c : Char} {tail rest : List Char} {t : Token}
    (hspace : isSpace c = false) (h : token (c :: tail) = some (t, rest)) (r : Reading) :
    readFrom r (c :: tail) = (r.step t).bind (readFrom · rest) := by
  have htokens : tokens (c :: tail) = (tokens rest).map (t :: ·) := by
    rw [tokens, if_neg (by simp [hspace])]
    split
    · rename_i hnone
      rw [h] at hnone
      cases hnone
    · rename_i t' rest' hsome
      rw [h] at hsome
      cases hsome
      rfl
  rw [readFrom, htokens]
  cases htail : tokens rest with
  | none => cases hstep : r.step t <;> simp [readFrom, htail]
  | some ts => simp [Reading.run, readFrom, htail]

/-- In any state where a value may come, the text of the value completes it and changes nothing of
what is open. -/
def ReadsAs (json : Json) : Prop :=
  ∀ (mayClose : Bool) (frames : List Frame) (rest : List Char), Ends rest →
    readFrom ⟨.value mayClose, frames⟩ (json.compact ++ rest)
      = readFrom ⟨.after json, frames⟩ rest

theorem readFrom_quoted (r : Reading) (text : Option String) (rest : List Char) :
    readFrom r (quoted text ++ rest) = (r.step (.text text)).bind (readFrom · rest) := by
  have htoken := token_quoted text rest
  obtain ⟨tail, htail⟩ : ∃ tail, quoted text ++ rest = '"' :: tail := by
    cases text <;> exact ⟨_, rfl⟩
  rw [htail] at htoken ⊢
  exact readFrom_token rfl htoken r

theorem readsAs_string (text : Option String) : ReadsAs (.string text) := by
  intro mayClose frames rest _
  rw [compact, readFrom_quoted]
  rfl

theorem isSpace_of_numeral {c : Char} (h : c.isDigit = true ∨ c = '-') : isSpace c = false := by
  rw [isSpace]
  simp only [Bool.or_eq_false_iff, beq_eq_false_iff_ne]
  refine ⟨⟨⟨?_, ?_⟩, ?_⟩, ?_⟩ <;>
  · rintro rfl
    rcases h with h | h <;> cases h

theorem readsAs_number {n : Numeral} (h : n.Proper) : ReadsAs (.number n) := by
  intro mayClose frames rest hrest
  obtain ⟨c, tail, htext, hc⟩ := exists_text_eq h
  have hnumeral := numeral_append h hrest
  rw [compact]
  rw [htext, List.cons_append] at hnumeral ⊢
  have htoken := token_of_numeral hc (tail ++ rest)
  rw [hnumeral] at htoken
  rw [readFrom_token (isSpace_of_numeral hc) htoken]
  rfl

theorem ends_of_mark {c : Char} (h : c = ',' ∨ c = ']' ∨ c = '\x7d') (rest : List Char) :
    Ends (c :: rest) := by
  refine ends_cons ?_ rest
  rcases h with rfl | rfl | rfl <;> decide

variable {frames : List Frame}

/-- The items of an open array and its closing bracket. -/
theorem readFrom_items {items : List Json} (hne : items ≠ []) (h : ∀ item ∈ items, ReadsAs item)
    (mayClose : Bool) (done : List Json) (rest : List Char) :
    readFrom ⟨.value mayClose, .array done :: frames⟩ (compactItems items ++ rest)
      = readFrom ⟨.after (.array (done.reverse ++ items)), frames⟩ rest := by
  induction items generalizing mayClose done with
  | nil => exact absurd rfl hne
  | cons item more ih =>
    obtain ⟨hitem, hmore⟩ := List.forall_mem_cons.1 h
    cases more with
    | nil =>
      rw [compactItems, List.append_assoc, List.singleton_append,
        hitem mayClose _ _ (ends_of_mark (by simp) rest), readFrom_token rfl rfl]
      have hstep : Reading.step ⟨.after item, .array done :: frames⟩ .endArray
          = some ⟨.after (.array (item :: done).reverse), frames⟩ := rfl
      rw [hstep, Option.bind_some, List.reverse_cons]
    | cons next more =>
      have hcompact : compactItems (item :: next :: more)
          = item.compact ++ ',' :: compactItems (next :: more) := by
        rw [compactItems]
        exact List.cons_ne_nil next more
      rw [hcompact, List.append_assoc, List.cons_append,
        hitem mayClose _ _ (ends_of_mark (by simp) _), readFrom_token rfl rfl]
      have hstep : Reading.step ⟨.after item, .array done :: frames⟩ .comma
          = some ⟨.value false, .array (item :: done) :: frames⟩ := rfl
      rw [hstep, Option.bind_some, ih (List.cons_ne_nil next more) hmore false (item :: done),
        List.reverse_cons, List.append_assoc, List.singleton_append]

/-- The name, the colon and the value of a member. -/
theorem readFrom_member {value : Json} (hvalue : ReadsAs value) (name : Option String)
    (mayClose : Bool) (done : List (Option String × Json)) {rest : List Char}
    (hrest : Ends rest) :
    readFrom ⟨.name done mayClose, frames⟩ (quoted name ++ ':' :: (value.compact ++ rest))
      = readFrom ⟨.after value, .member done name :: frames⟩ rest := by
  have hname : Reading.step ⟨.name done mayClose, frames⟩ (.text name)
      = some ⟨.colon done name, frames⟩ := by
    cases done <;> cases mayClose <;> rfl
  rw [readFrom_quoted, hname, Option.bind_some, readFrom_token rfl rfl]
  exact hvalue false _ rest hrest

/-- The members of an open object and its closing brace. -/
theorem readFrom_members {members : List (Option String × Json)} (hne : members ≠ [])
    (h : ∀ member ∈ members, ReadsAs member.2) (mayClose : Bool)
    (done : List (Option String × Json)) (rest : List Char) :
    readFrom ⟨.name done mayClose, frames⟩ (compactMembers members ++ rest)
      = readFrom ⟨.after (.object (done.reverse ++ members)), frames⟩ rest := by
  induction members generalizing mayClose done with
  | nil => exact absurd rfl hne
  | cons member more ih =>
    obtain ⟨name, value⟩ := member
    obtain ⟨hvalue, hmore⟩ := List.forall_mem_cons.1 h
    cases more with
    | nil =>
      have hcompact : compactMembers [(name, value)] ++ rest
          = quoted name ++ ':' :: (value.compact ++ '\x7d' :: rest) := by
        simp [compactMembers]
      rw [hcompact, readFrom_member hvalue name mayClose done (ends_of_mark (by simp) rest),
        readFrom_token rfl rfl]
      have hstep : Reading.step ⟨.after value, .member done name :: frames⟩ .endObject
          = some ⟨.after (.object ((name, value) :: done).reverse), frames⟩ := rfl
      rw [hstep, Option.bind_some, List.reverse_cons]
    | cons next more =>
      have hcompact : compactMembers ((name, value) :: next :: more) ++ rest
          = quoted name ++ ':' :: (value.compact
            ++ ',' :: (compactMembers (next :: more) ++ rest)) := by
        rw [compactMembers]
        · simp
        · exact List.cons_ne_nil next more
      rw [hcompact, readFrom_member hvalue name mayClose done (ends_of_mark (by simp) _),
        readFrom_token rfl rfl]
      have hstep : Reading.step ⟨.after value, .member done name :: frames⟩ .comma
          = some ⟨.name ((name, value) :: done) false, frames⟩ := rfl
      rw [hstep, Option.bind_some,
        ih (List.cons_ne_nil next more) hmore false ((name, value) :: done),
        List.reverse_cons, List.append_assoc, List.singleton_append]

/-! ## Values -/

/-- A value whose numerals are proper. -/
inductive Proper : Json → Prop where
  | null : Proper .null
  | bool (value : Bool) : Proper (.bool value)
  | number {n : Numeral} (h : n.Proper) : Proper (.number n)
  | string (text : Option String) : Proper (.string text)
  | array {items : List Json} (h : ∀ item ∈ items, Proper item) : Proper (.array items)
  | object {members : List (Option String × Json)} (h : ∀ member ∈ members, Proper member.2) :
      Proper (.object members)

theorem Proper.readsAs {json : Json} (h : json.Proper) : ReadsAs json := by
  induction h with
  | null =>
    intro mayClose frames rest _
    rw [compact, List.cons_append, readFrom_token rfl rfl]
    rfl
  | bool value =>
    intro mayClose frames rest _
    cases value <;>
    · rw [compact, List.cons_append, readFrom_token rfl rfl]
      rfl
  | number hn => exact readsAs_number hn
  | string text => exact readsAs_string text
  | @array items _ ih =>
    intro mayClose frames rest _
    rw [compact, List.cons_append, readFrom_token rfl rfl]
    cases items with
    | nil =>
      rw [compactItems]
      change readFrom ⟨.value true, .array [] :: frames⟩ (']' :: rest) = _
      rw [readFrom_token rfl rfl]
      rfl
    | cons item more => exact readFrom_items (List.cons_ne_nil item more) ih true [] rest
  | @object members _ ih =>
    intro mayClose frames rest _
    rw [compact, List.cons_append, readFrom_token rfl rfl]
    cases members with
    | nil =>
      rw [compactMembers]
      change readFrom ⟨.name [] true, frames⟩ ('\x7d' :: rest) = _
      rw [readFrom_token rfl rfl]
      rfl
    | cons member more => exact readFrom_members (List.cons_ne_nil member more) ih true [] rest

/-- **The text of a value is the value.** -/
theorem parse?_text {json : Json} (h : json.Proper) : parse? json.text = some json := by
  have hread := h.readsAs false [] [] ends_nil
  rw [List.append_nil] at hread
  have hparse : parseChars json.compact
      = (readFrom Reading.start json.compact).bind Reading.result? := by
    simp only [parseChars, readFrom, Option.bind_eq_bind]
    rw [Option.bind_assoc]
  rw [parse?, text, String.toList_ofList, hparse, Reading.start, hread, readFrom, tokens]
  rfl

end ShaderGraph.Json

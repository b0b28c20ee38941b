import ShaderGraph.Proofs.Indentation

/-!
# Masks

The mask of a text says of each of its bytes whether it is code. The machine looks only at ASCII
characters, so it can read bytes as well as characters: the bytes of a character outside ASCII are
all code or all not, as the character is (`mask_bytes`).

A text can be cut wherever the machine is inside the code, unless the cut goes through an opening
mark. The masks of the two parts then make up the mask of the whole (`cells_append`). No cut goes
through a word: characters that mean nothing to the machine, word characters among them, are all
code or all not as long as they stand side by side (`cells_plain`).
-/

namespace ShaderGraph.Glsl

/-! ## Cutting a text -/

/-- A character that leads into the code does so whatever follows it, unless it is a slash of the
code that makes an opening mark with the next one. -/
theorem step_of_code {state : State} {c : Char} {ahead : Option Char}
    (h : (state.step c none).2 = .inside .code)
    (hseam : c = '/' → (state.step c none).1 = true → ahead ≠ some '/' ∧ ahead ≠ some '*') :
    state.step c ahead = state.step c none := by
  rcases state with ⟨_ | _ | _ | _⟩ | ⟨_⟩
  · by_cases hslash : c = '/'
    · obtain ⟨hline, hblock⟩ := hseam hslash (by simp [State.step, hslash])
      simp [State.step, hline, hblock]
    · simp [State.step, hslash]
  · have hback : c ≠ '\\' := by
      rintro rfl
      simp [State.step] at h
    simp [State.step, hback]
  · rfl
  · simp [State.step] at h
  · rfl

/-- A text that ends inside the code reads as it does alone, if no opening mark runs over its
end. -/
theorem before_of_code {ahead : Option Char} {state : State} {text : List Char}
    (h : stateAfter state text = .inside .code)
    (hseam : (cellsFrom state text).getLast? = some ⟨'/', true⟩ →
      ahead ≠ some '/' ∧ ahead ≠ some '*') :
    cellsBefore ahead state text = cellsFrom state text ∧
      stateBefore ahead state text = .inside .code := by
  induction text generalizing state with
  | nil => exact ⟨rfl, h⟩
  | cons c rest ih =>
    rcases rest with _ | ⟨d, rest⟩
    · have hstep : state.step c ahead = state.step c none := by
        refine step_of_code h fun hslash hcode => hseam ?_
        rw [cellsFrom, List.head?_nil, hcode, hslash]
        rfl
      rw [cellsBefore, cellsFrom, stateBefore, List.head?_nil, Option.none_or, hstep]
      exact ⟨rfl, h⟩
    · have hlast : (cellsFrom state (c :: d :: rest)).getLast?
          = (cellsFrom (state.step c (some d)).2 (d :: rest)).getLast? := by
        rw [cellsFrom, cellsFrom, List.getLast?_cons_cons]
        rfl
      obtain ⟨hcells, hstate⟩ := @ih (state.step c (some d)).2 h (hlast ▸ hseam)
      exact ⟨congrArg _ hcells, hstate⟩

/-- **Behind a text that ends inside the code the machine starts anew**, if no opening mark runs
over the seam. -/
theorem cells_append {x y : List Char} (hx : stateAfter (.inside .code) x = .inside .code)
    (hseam : (cells x).getLast? = some ⟨'/', true⟩ → y.head? ≠ some '/' ∧ y.head? ≠ some '*') :
    cells (x ++ y) = cells x ++ cells y := by
  obtain ⟨hcells, hstate⟩ := before_of_code hx hseam
  rw [cells, cellsFrom_append, hcells, hstate]
  rfl

/-! ## Characters side by side -/

/-- Whether a character means nothing to the machine. -/
def isPlain (c : Char) : Bool := c != '/' && c != '*' && c != '"' && c != '\\' && c != '\n'

theorem isPlain_of_isWordChar {c : Char} (h : Text.isWordChar c = true) : isPlain c = true := by
  have hback : c ≠ '\\' := by
    rintro rfl
    cases h
  simp [isPlain, ne_of_isWordChar h, hback]

theorem isPlain_of_le {c : Char} (h : 128 ≤ c.toNat) : isPlain c = true := by
  have hne : ∀ d : Char, d.toNat < 128 → c ≠ d := by
    rintro d hd rfl
    omega
  simp [isPlain, hne '/' (by decide), hne '*' (by decide), hne '"' (by decide),
    hne '\\' (by decide), hne '\n' (by decide)]

theorem step_isPlain {c : Char} (h : isPlain c = true) (state : State) (ahead : Option Char) :
    state.step c ahead = (decide (state = .inside .code), .inside state.zone) := by
  simp only [isPlain, Bool.and_eq_true, bne_iff_ne] at h
  obtain ⟨⟨⟨⟨hslash, hstar⟩, hquote⟩, hback⟩, hline⟩ := h
  rcases state with ⟨_ | _ | _ | _⟩ | ⟨_⟩ <;>
    simp [State.step, State.zone, hslash, hstar, hquote, hback, hline]

/-- Only a slash that closes a comment is passed over on the way into the code. -/
theorem ahead_of_step_eq_passing {state : State} {c : Char} {ahead : Option Char}
    (h : (state.step c ahead).2 = .passing .code) : ahead = some '/' := by
  rcases state with ⟨_ | _ | _ | _⟩ | ⟨_⟩ <;> simp only [State.step] at h <;> grind

theorem stateBefore_ne_passing {ahead : Option Char} (hahead : ahead ≠ some '/') (zone : Zone)
    (text : List Char) : stateBefore ahead (.inside zone) text ≠ .passing .code := by
  have hcons : ∀ (rest : List Char) (c : Char) (state : State),
      stateBefore ahead state (c :: rest) ≠ .passing .code := by
    intro rest
    induction rest with
    | nil => exact fun c state hpassing => hahead (ahead_of_step_eq_passing hpassing)
    | cons d rest ih => exact fun c state => ih d _
  cases text with
  | nil => simp [stateBefore]
  | cons c rest => exact hcons rest c _

/-- Plain characters are all code or all not, and the machine stays in its zone. -/
theorem cellsFrom_plain {run : List Char} (hrun : ∀ c ∈ run, isPlain c = true) {state : State}
    (hstate : run ≠ [] → state ≠ .passing .code) (rest : List Char) :
    cellsFrom state (run ++ rest) = run.map (⟨·, decide (state = .inside .code)⟩)
      ++ cellsFrom (if run.isEmpty then state else .inside state.zone) rest := by
  induction run generalizing state with
  | nil => rfl
  | cons c run ih =>
    obtain ⟨hc, hrun⟩ := List.forall_mem_cons.1 hrun
    have hcode : State.inside state.zone = .inside .code ↔ state = .inside .code := by
      rcases state with ⟨zone⟩ | ⟨zone⟩
      · rfl
      · simpa [State.zone] using hstate
    have hzone : (State.inside state.zone).zone = state.zone := rfl
    have hrest := @ih hrun (.inside state.zone) (by simp)
    rw [List.cons_append, cellsFrom, step_isPlain hc, hrest]
    simp only [hcode, hzone, ite_self, List.map_cons, List.cons_append, List.isEmpty_cons,
      Bool.false_eq_true, if_false]

/-- **Plain characters side by side are all code or all not**, wherever they stand. -/
theorem cells_plain {run : List Char} (hrun : ∀ c ∈ run, isPlain c = true)
    (before after : List Char) : ∃ isCode front back, front.length = before.length ∧
      cells (before ++ (run ++ after)) = front ++ (run.map (⟨·, isCode⟩) ++ back) := by
  have hstate : run ≠ [] →
      stateBefore (run ++ after).head? (.inside .code) before ≠ .passing .code := by
    intro hne
    obtain ⟨c, rest, rfl⟩ := List.exists_cons_of_ne_nil hne
    refine stateBefore_ne_passing (fun hslash => ?_) .code before
    obtain rfl : c = '/' := by simpa using hslash
    cases hrun _ List.mem_cons_self
  have hcells := cellsFrom_append (.inside .code) before (run ++ after)
  rw [cellsFrom_plain hrun hstate] at hcells
  exact ⟨_, _, _, length_cellsBefore _ _ _, hcells⟩

/-! ## Bytes -/

/-- Which bytes are code. The machine reads each byte as the character with its number. -/
def mask (bytes : List UInt8) : List Bool := (cells (bytes.map Char.ofUInt8)).map Cell.isCode

/-- The bytes of a text. -/
def bytes (text : List Char) : List UInt8 := text.flatMap String.utf8EncodeChar

theorem bytes_toList (text : String) : bytes text.toList = text.toUTF8.data.toList := by
  have htext : text.toUTF8 = (bytes text.toList).toByteArray := by
    conv_lhs => rw [← String.ofList_toList (s := text)]
    rfl
  rw [htext, List.data_toByteArray]

theorem toNat_ofUInt8 (b : UInt8) : (Char.ofUInt8 b).toNat = b.toNat := UInt8.toNat_toUInt32 b

/-- Bytes that are read alike are the same. -/
theorem eq_some_of_map_ofUInt8 {byte? : Option UInt8} {b : UInt8}
    (h : byte?.map Char.ofUInt8 = some (Char.ofUInt8 b)) : byte? = some b := by
  obtain ⟨a, ha, hab⟩ := Option.map_eq_some_iff.1 h
  have hsame : a.toNat = b.toNat := by rw [← toNat_ofUInt8, hab, toNat_ofUInt8]
  rw [ha, UInt8.toNat_inj.1 hsame]

/-- An ASCII character is its own byte. -/
theorem utf8EncodeChar_of_lt {c : Char} (h : c.toNat < 128) :
    (String.utf8EncodeChar c).map Char.ofUInt8 = [c] := by
  have hsize : c.utf8Size = 1 := by
    rw [Char.utf8Size_eq_one_iff, UInt32.le_iff_toNat_le]
    exact Nat.le_of_lt_succ h
  have hbyte : Char.ofUInt8 c.val.toUInt8 = c := by
    rw [← Char.toNat_inj, toNat_ofUInt8, UInt32.toNat_toUInt8]
    exact Nat.mod_eq_of_lt (Nat.lt_trans h (by decide))
  rw [String.utf8EncodeChar_eq_singleton hsize, List.map_singleton, hbyte]

/-- The bytes of other characters are outside ASCII. -/
theorem le_of_mem_utf8EncodeChar {c : Char} (h : 128 ≤ c.toNat) {b : UInt8}
    (hb : b ∈ String.utf8EncodeChar c) : 128 ≤ b.toNat := by
  have hoctet : ∀ n, 128 ≤ n → n < 256 → 128 ≤ (UInt8.ofNat n).toNat := by
    intro n hlow hhigh
    rwa [UInt8.toNat_ofNat', Nat.mod_eq_of_lt hhigh]
  have hlead : ¬c.val.toNat ≤ 127 := Nat.not_le.2 h
  delta String.utf8EncodeChar at hb
  simp only [if_neg hlead] at hb
  split_ifs at hb <;> simp only [List.mem_cons, List.not_mem_nil, or_false] at hb <;>
    rcases hb with rfl | rfl | rfl | rfl <;> exact hoctet _ (by omega) (by omega)

theorem isPlain_of_mem_bytes {c : Char} (h : 128 ≤ c.toNat) :
    ∀ d ∈ (String.utf8EncodeChar c).map Char.ofUInt8, isPlain d = true := by
  intro d hd
  obtain ⟨b, hb, rfl⟩ := List.mem_map.1 hd
  exact isPlain_of_le (toNat_ofUInt8 b ▸ le_of_mem_utf8EncodeChar h hb)

/-- A step looks at the next byte as it looks at the next character. -/
theorem step_bytes (state : State) (c : Char) (rest : List Char) :
    state.step c ((bytes rest).map Char.ofUInt8).head? = state.step c rest.head? := by
  rcases rest with _ | ⟨d, rest⟩
  · rfl
  rw [bytes, List.flatMap_cons, List.map_append]
  rcases Nat.lt_or_ge d.toNat 128 with hd | hd
  · rw [utf8EncodeChar_of_lt hd]
    rfl
  · have hne : (String.utf8EncodeChar d).map Char.ofUInt8 ≠ [] := by simp
    obtain ⟨e, more, hencoded⟩ := List.exists_cons_of_ne_nil hne
    have hplain := isPlain_of_mem_bytes hd e (hencoded ▸ List.mem_cons_self)
    have hplain' := isPlain_of_le hd
    simp only [isPlain, Bool.and_eq_true, bne_iff_ne] at hplain hplain'
    rw [hencoded]
    exact step_congr_ahead state c hplain.1.1.1 hplain'.1.1.1

theorem map_isCode (chars : List Char) (isCode : Bool) :
    (chars.map (⟨·, isCode⟩ : Char → Cell)).map Cell.isCode
      = List.replicate chars.length isCode := by
  rw [List.map_map]
  exact List.map_const'

/-- Bytes are read as the characters that they encode. -/
theorem cellsFrom_bytes {state : State} {text : List Char}
    (hstate : state = .passing .code → text.head? = some '/') :
    (cellsFrom state ((bytes text).map Char.ofUInt8)).map Cell.isCode
      = (cellsFrom state text).flatMap fun cell =>
        List.replicate cell.char.utf8Size cell.isCode := by
  induction text generalizing state with
  | nil => rfl
  | cons c rest ih =>
    rw [bytes, List.flatMap_cons, List.map_append, ← bytes, cellsFrom, List.flatMap_cons]
    rcases Nat.lt_or_ge c.toNat 128 with hc | hc
    · have hsize : c.utf8Size = 1 := by
        rw [← String.length_utf8EncodeChar, ← List.length_map, utf8EncodeChar_of_lt hc]
        rfl
      rw [utf8EncodeChar_of_lt hc, List.singleton_append, cellsFrom, step_bytes, List.map_cons,
        ih ahead_of_step_eq_passing, hsize]
      rfl
    · have hpassing : state ≠ .passing .code := by
        intro hpassing
        obtain rfl : c = '/' := by simpa using hstate hpassing
        revert hc
        decide
      have hempty : ((String.utf8EncodeChar c).map Char.ofUInt8).isEmpty = false := by simp
      rw [cellsFrom_plain (isPlain_of_mem_bytes hc) (fun _ => hpassing), hempty, List.map_append,
        map_isCode, List.length_map, String.length_utf8EncodeChar, step_isPlain (isPlain_of_le hc),
        ← ih (by simp)]
      rfl

/-- **The mask of a text marks the bytes of each character as the character is marked.** -/
theorem mask_bytes (text : List Char) : mask (bytes text)
    = (cells text).flatMap fun cell => List.replicate cell.char.utf8Size cell.isCode :=
  cellsFrom_bytes (by simp)

/-- Two parts of a text that meet inside an opening mark: the first ends with a slash of the code,
and the second goes on with a slash or a star. -/
def Splits (x y : List UInt8) : Prop :=
  (x.getLast? = some '/'.toUInt8 ∧ (mask x).getLast? = some true) ∧
    (y.head? = some '/'.toUInt8 ∨ y.head? = some '*'.toUInt8)

instance (x y : List UInt8) : Decidable (Splits x y) := inferInstanceAs (Decidable (_ ∧ _))

theorem mask_append {x y : List UInt8}
    (hx : stateAfter (.inside .code) (x.map Char.ofUInt8) = .inside .code) (hxy : ¬Splits x y) :
    mask (x ++ y) = mask x ++ mask y := by
  rw [mask, List.map_append, cells_append hx, List.map_append]
  · rfl
  intro hlast
  have hchars := map_char_cellsFrom (.inside .code) (x.map Char.ofUInt8)
  have hslash : x.getLast? = some '/'.toUInt8 := by
    refine eq_some_of_map_ofUInt8 ?_
    rw [← List.getLast?_map, ← hchars, List.getLast?_map]
    exact congrArg (Option.map Cell.char) hlast
  have hcode : (mask x).getLast? = some true := by
    rw [mask, List.getLast?_map, hlast]
    rfl
  rw [List.head?_map]
  exact ⟨fun h => hxy ⟨⟨hslash, hcode⟩, Or.inl (eq_some_of_map_ofUInt8 h)⟩,
    fun h => hxy ⟨⟨hslash, hcode⟩, Or.inr (eq_some_of_map_ofUInt8 h)⟩⟩

/-- Word characters side by side are all code or all not. -/
theorem mask_run {run : List UInt8} (hrun : ∀ b ∈ run, Text.isWordChar (Char.ofUInt8 b) = true)
    (before after : List UInt8) : ∃ isCode front back, front.length = before.length ∧
      mask (before ++ (run ++ after)) = front ++ (List.replicate run.length isCode ++ back) := by
  have hplain : ∀ c ∈ run.map Char.ofUInt8, isPlain c = true := by
    intro c hc
    obtain ⟨b, hb, rfl⟩ := List.mem_map.1 hc
    exact isPlain_of_isWordChar (hrun b hb)
  obtain ⟨isCode, front, back, hlength, hcells⟩ :=
    cells_plain hplain (before.map Char.ofUInt8) (after.map Char.ofUInt8)
  refine ⟨isCode, front.map Cell.isCode, back.map Cell.isCode, by simp [hlength], ?_⟩
  rw [mask, List.map_append, List.map_append, hcells, List.map_append, List.map_append,
    map_isCode, List.length_map]

/-- **Masks are compositional.** If the machine is inside the code at the end of some bytes, and no
slash of the code there makes an opening mark with the first byte behind, the mask of both parts is
the mask of the one and then that of the other. Word characters side by side are all code or all
inside comments and strings, and so is every run of them that is as long as it can be. The machine
that reads bytes is the one that reads characters: the mask of a text marks the bytes of each
character as the character is marked. -/
theorem mask_compositional :
    (∀ x y : List UInt8, stateAfter (.inside .code) (x.map Char.ofUInt8) = .inside .code →
      ¬Splits x y → mask (x ++ y) = mask x ++ mask y) ∧
    (∀ before run after : List UInt8, (∀ b ∈ run, Text.isWordChar (Char.ofUInt8 b) = true) →
      ∃ isCode front back, front.length = before.length ∧
        mask (before ++ (run ++ after)) = front ++ (List.replicate run.length isCode ++ back)) ∧
    ∀ text : String, mask text.toUTF8.data.toList
      = (cells text.toList).flatMap fun cell => List.replicate cell.char.utf8Size cell.isCode :=
  ⟨fun _ _ => mask_append, fun before _ after hrun => mask_run hrun before after,
    fun text => by rw [← bytes_toList, mask_bytes]⟩

/-- A string with an escaped quote and then a slash of the code, cut before a string with
slashes. -/
theorem mask_compositional_division :
    let x := bytes "a\"\\\"\"/".toList
    let y := bytes "\"//é".toList
    stateAfter (.inside .code) (x.map Char.ofUInt8) = .inside .code ∧ ¬Splits x y ∧
    mask x = [true, false, false, false, false, true] ∧
    mask (x ++ y) = mask x ++ mask y := by
  intro x y
  have hx : stateAfter (.inside .code) (x.map Char.ofUInt8) = .inside .code := by decide +kernel
  have hxy : ¬Splits x y := by decide +kernel
  exact ⟨hx, hxy, by decide +kernel, mask_compositional.1 x y hx hxy⟩

/-- Cut inside an opening mark, neither part is a comment. -/
example : mask (bytes "/".toList ++ bytes "/a".toList) = [false, false, false] ∧
    mask (bytes "/".toList) ++ mask (bytes "/a".toList) = [true, true, true] := by
  decide +kernel

end ShaderGraph.Glsl

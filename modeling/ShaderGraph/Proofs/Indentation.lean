import ShaderGraph.Proofs.Renaming
import ShaderGraph.Proofs.Seams

/-!
# Indented code

Code is trimmed and indented line by line before it is put in braces: trailing blanks go and spaces
come in front. This can change a string that runs over several lines, and it can change which
character a backslash at the end of a line takes with it. The identifiers stay as they are
(`identifiers_indent`), also where a string or a comment is never closed.

What carries the proof is that a line begins inside a zone, never between two characters that belong
together, and that the zone of the next line is the same for a line and for the indented line.
-/

namespace ShaderGraph.Glsl

/-! ## Blanks -/

/-- It does not matter to a text which blank stands behind it. -/
theorem stateBefore_isBlank {b c : Char} (hb : Text.isBlank b = true) (hc : Text.isBlank c = true)
    (state : State) (text : List Char) :
    stateBefore (some b) state text = stateBefore (some c) state text := by
  obtain ⟨hb, hb', -⟩ := ne_of_isBlank hb
  obtain ⟨hc, hc', -⟩ := ne_of_isBlank hc
  induction text generalizing state with
  | nil => rfl
  | cons d rest ih =>
    rcases rest with _ | ⟨e, rest⟩
    · exact congrArg Prod.snd (step_congr_ahead state d ⟨hb, hb'⟩ ⟨hc, hc'⟩)
    · exact ih _

theorem stateBefore_append (ahead : Option Char) (state : State) (x y : List Char) :
    stateBefore ahead state (x ++ y)
      = stateBefore ahead (stateBefore (y.head?.or ahead) state x) y := by
  induction x generalizing state with
  | nil => rfl
  | cons c rest ih =>
    rw [List.cons_append, stateBefore, stateBefore, List.head?_append, Option.or_assoc, ih]

/-! ## Lines -/

/-- The zone of a state, or the one that it leads to. -/
def State.zone : State → Zone
  | .inside zone => zone
  | .passing zone => zone

/-- The zone behind a line feed. -/
def Zone.below : Zone → Zone
  | .lineComment => .code
  | zone => zone

/-- The zone that the next line begins in. -/
def zoneBelow (zone : Zone) (line : List Char) : Zone :=
  (stateBefore (some '\n') (.inside zone) line).zone.below

theorem step_isBlank {b : Char} (hb : Text.isBlank b = true) (hline : b ≠ '\n') (state : State)
    (ahead : Option Char) : (state.step b ahead).2 = .inside state.zone := by
  obtain ⟨hslash, hstar, hback, hquote⟩ := ne_of_isBlank hb
  rcases state with ⟨_ | _ | _ | _⟩ | ⟨_⟩ <;>
    simp [State.step, State.zone, hslash, hstar, hback, hquote, hline]

/-- Blanks on a line lead nowhere else. -/
theorem stateBefore_blanks {blanks : List Char}
    (h : ∀ b ∈ blanks, Text.isBlank b = true ∧ b ≠ '\n') (ahead : Option Char) (zone : Zone) :
    stateBefore ahead (.inside zone) blanks = .inside zone := by
  induction blanks with
  | nil => rfl
  | cons b rest ih =>
    obtain ⟨⟨hb, hline⟩, hrest⟩ := List.forall_mem_cons.1 h
    rw [stateBefore, step_isBlank hb hline]
    exact ih hrest

/-- A line feed leads to the next line. If it belongs to the character before it, that is a
backslash in a string. -/
theorem step_lineFeed (zone : Zone) (line : List Char) (ahead : Option Char) :
    ((stateBefore (some '\n') (.inside zone) line).step '\n' ahead).2
      = .inside (zoneBelow zone line) := by
  rw [zoneBelow]
  have hslash : '\n' ≠ '/' := by decide
  have hstar : '\n' ≠ '*' := by decide
  obtain ⟨-, hstate | ⟨-, hstring⟩⟩ := before_cases hslash hstar (.inside zone) line
  · obtain ⟨last, hlast⟩ : ∃ last, stateAfter (.inside zone) line = .inside last :=
      exists_stateAfter_eq_inside (by simp)
    rw [hstate, hlast]
    cases last <;> simp [State.step, State.zone, Zone.below]
  · rw [hstring]
    rfl

theorem namesFrom_line (zone : Zone) (line rest : List Char) :
    namesFrom (.inside zone) (line ++ '\n' :: rest)
      = namesFrom (.inside zone) line ++ namesFrom (.inside (zoneBelow zone line)) rest := by
  rw [namesFrom_append_cons (by decide), step_lineFeed]

/-- Blanks at the end of a line do not matter to the next one. -/
theorem zoneBelow_append_blanks {blanks : List Char}
    (h : ∀ b ∈ blanks, Text.isBlank b = true ∧ b ≠ '\n') (zone : Zone) (line : List Char) :
    zoneBelow zone (line ++ blanks) = zoneBelow zone line := by
  rcases blanks with _ | ⟨b, rest⟩
  · rw [List.append_nil]
  · obtain ⟨⟨hb, hline⟩, hrest⟩ := List.forall_mem_cons.1 h
    rw [zoneBelow, stateBefore_append, List.head?_cons, Option.some_or,
      stateBefore_isBlank hb (by decide : Text.isBlank '\n' = true), stateBefore,
      step_isBlank hb hline, stateBefore_blanks hrest]
    rfl

/-- Nor do blanks at its front. -/
theorem blanks_append {blanks : List Char} (h : ∀ b ∈ blanks, Text.isBlank b = true ∧ b ≠ '\n')
    (zone : Zone) (line : List Char) :
    namesFrom (.inside zone) (blanks ++ line) = namesFrom (.inside zone) line ∧
      zoneBelow zone (blanks ++ line) = zoneBelow zone line := by
  constructor
  · induction blanks with
    | nil => rfl
    | cons b rest ih =>
      obtain ⟨⟨hb, hline⟩, hrest⟩ := List.forall_mem_cons.1 h
      have hcons := namesFrom_append_cons hb (.inside zone) [] (rest ++ line)
      rw [stateBefore, step_isBlank hb hline] at hcons
      exact hcons.trans (ih hrest)
  · rw [zoneBelow, stateBefore_append, stateBefore_blanks h]
    rfl

/-- An indented line is read as the line was. -/
theorem indentLine_eq {line : List Char} (h : '\n' ∉ line) (width : Nat) (zone : Zone) :
    namesFrom (.inside zone) (Text.indentLine width line) = namesFrom (.inside zone) line ∧
      zoneBelow zone (Text.indentLine width line) = zoneBelow zone line := by
  obtain ⟨back, hback, hline⟩ := Text.exists_eq_trimEnd_append line
  have hfree : ∀ b ∈ back, Text.isBlank b = true ∧ b ≠ '\n' := by
    refine fun b hb => ⟨hback b hb, ?_⟩
    rintro rfl
    exact h (hline ▸ List.mem_append_right _ hb)
  have hnames := namesFrom_append_blanks hback (.inside zone) (Text.trimEnd line)
  have hbelow := zoneBelow_append_blanks hfree zone (Text.trimEnd line)
  rw [← hline] at hnames hbelow
  have hspaces : ∀ b ∈ List.replicate width ' ', Text.isBlank b = true ∧ b ≠ '\n' := by
    intro b hb
    rw [List.eq_of_mem_replicate hb]
    decide
  rw [hnames, hbelow, Text.indentLine]
  split
  · rename_i hnil
    rw [hnil]
    exact ⟨rfl, rfl⟩
  · exact blanks_append hspaces zone (Text.trimEnd line)

/-- Indenting a text keeps its identifiers, wherever it begins. -/
theorem namesFrom_indent (width : Nat) (zone : Zone) (text : List Char) :
    namesFrom (.inside zone)
        (['\n'].intercalate ((text.splitOn '\n').map (Text.indentLine width)))
      = namesFrom (.inside zone) text := by
  -- on the text behind the first line, which begins in the same zone either way
  induction hlength : text.length using Nat.strongRecOn generalizing text zone with
  | ind length ih =>
    by_cases hline : '\n' ∈ text
    · obtain ⟨line, rest, rfl, hfree⟩ := List.eq_append_cons_of_mem hline
      have hshorter : rest.length < length := by
        rw [← hlength, List.length_append, List.length_cons]
        omega
      have hrest := ih rest.length hshorter (zoneBelow zone line) rest rfl
      obtain ⟨hnames, hbelow⟩ := indentLine_eq hfree width zone
      have hlines : (rest.splitOn '\n').map (Text.indentLine width) ≠ [] := by
        simp [List.splitOn_ne_nil]
      rw [List.splitOn_append_cons_self_of_not_mem hfree, List.map_cons,
        List.intercalate_cons_of_ne_nil hlines, List.append_assoc, List.singleton_append,
        namesFrom_line, namesFrom_line, hnames, hbelow, hrest]
    · rw [List.splitOn_eq_singleton hline]
      simpa using (indentLine_eq hline width zone).1

/-- **Indented code has the identifiers that it had.** -/
theorem identifiers_indent (width : Nat) (text : String) :
    identifiers (Text.indent width text) = identifiers text := by
  rw [identifiers_eq, identifiers_eq, ← names_trim text.toList, Text.indent, String.toList_ofList]
  exact congrArg (List.map String.ofList) (namesFrom_indent width .code _)

end ShaderGraph.Glsl

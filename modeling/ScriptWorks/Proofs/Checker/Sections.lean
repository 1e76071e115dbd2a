import Mathlib.Data.List.Forall2
import ScriptWorks.Proofs.Checker.Chain
import ScriptWorks.Proofs.Checker.Pattern
import ScriptWorks.Proofs.Checker.Place

/-!
# Sections of checker output

An output is what comes before the first line that begins a diagnostic, and a section for each such line,
up to the next one. Each section is one diagnostic: its first line and those of its lines that are
indented are all that counts.
-/

namespace ScriptWorks

namespace Checker

/-- The line begins a diagnostic. It does not start with a blank; blanks at its end do not count. -/
def IsHead (line : List Char) (head : Head) : Prop :=
  ¬ IsIndented line ∧ HeadLine (Text.trimEnd line) head

/-- The line continues a diagnostic: it starts with a blank, but is not blank. -/
def IsContinuation (line : List Char) : Prop :=
  IsIndented line ∧ ∃ c ∈ line, Text.isBlank c = false

instance (line : List Char) : Decidable (IsContinuation line) :=
  inferInstanceAs (Decidable (_ ∧ ∃ c ∈ line, Text.isBlank c = false))

/-- A line that begins a diagnostic, what it says, and the lines up to the next one. -/
structure Section where
  line : List Char
  head : Head
  rest : List (List Char)
  begins : IsHead line head
  ends : ∀ line ∈ rest, ∀ head, ¬ IsHead line head

namespace Section

def lines (s : Section) : List (List Char) := s.line :: s.rest

def continuations (s : Section) : List (List Char) := s.rest.filter (IsContinuation ·)

/-- The diagnostic that the section prints. -/
def printed (s : Section) : Printed := ⟨s.head, s.continuations.map detail⟩

/-- The section with only those of its lines that count. -/
def trimmed (s : Section) : Section :=
  { s with rest := s.continuations, ends := fun line hline => s.ends line (List.mem_filter.mp hline).1 }

theorem printed_trimmed (s : Section) : s.trimmed.printed = s.printed := by
  have hfilter : s.continuations.filter (IsContinuation ·) = s.continuations := by
    unfold continuations
    simp only [List.filter_filter, Bool.and_self]
  exact congrArg (fun lines => Printed.mk s.head (lines.map detail)) hfilter

end Section

theorem exists_sections (lines : List (List Char)) :
    ∃ (before : List (List Char)) (sections : List Section),
      lines = before ++ sections.flatMap Section.lines ∧
        ∀ line ∈ before, ∀ head, ¬ IsHead line head := by
  induction lines with
  | nil => exact ⟨[], [], rfl, List.forall_mem_nil _⟩
  | cons line lines ih =>
      obtain ⟨before, sections, rfl, hbefore⟩ := ih
      by_cases hhead : ∃ head, IsHead line head
      · obtain ⟨head, hhead⟩ := hhead
        exact ⟨[], ⟨line, head, before, hhead, hbefore⟩ :: sections, rfl, List.forall_mem_nil _⟩
      · exact ⟨line :: before, sections, rfl,
          List.forall_mem_cons.mpr ⟨not_exists.mp hhead, hbefore⟩⟩

/-! ## Adding a line -/

variable {line : List Char} {printed : List Printed}

theorem isContinuation_iff : IsContinuation line ↔ IsIndented line ∧ Text.trimEnd line ≠ [] := by
  simp [IsContinuation, Text.trimEnd_eq_nil_iff]

theorem IsHead.trimEnd_ne_nil {head : Head} (h : IsHead line head) : Text.trimEnd line ≠ [] := by
  intro hnil
  have hline := h.2
  rw [hnil] at hline
  cases hline with
  | located hsplit hne => exact hne (List.append_eq_nil_iff.mp hsplit.symm).1
  | global _ hannounced =>
      generalize hempty : ([] : List Char) = cs at hannounced
      cases hannounced
      simp at hempty

theorem addLine_of_blank (h : Text.trimEnd line = []) : addLine printed line = printed := by
  simp only [addLine, h]

theorem addLine_of_indented (hne : Text.trimEnd line ≠ []) (h : IsIndented line) :
    addLine printed line = match printed with
      | last :: before => { last with details := last.details ++ [detail line] } :: before
      | [] => [] := by
  have hhead := Text.head?_trimEnd hne
  have htake := Text.takeWhile_trimEnd hne
  have hstart := Text.trimStart_trimEnd hne
  obtain ⟨c, rest, hc⟩ := List.exists_cons_of_ne_nil hne
  rw [hc] at hhead htake hstart
  have hblank : Text.isBlank c = true := by
    unfold IsIndented at h
    rwa [← hhead] at h
  cases printed <;> simp only [addLine, hc, hblank, if_true, htake, hstart, detail]

theorem addLine_of_flush (hne : Text.trimEnd line ≠ []) (h : ¬ IsIndented line) :
    addLine printed line = match head? (Text.trimEnd line) with
      | some head => ⟨head, []⟩ :: printed
      | none => printed := by
  have hhead := Text.head?_trimEnd hne
  obtain ⟨c, rest, hc⟩ := List.exists_cons_of_ne_nil hne
  rw [hc] at hhead
  have hblank : ¬ Text.isBlank c = true := by
    unfold IsIndented at h
    rwa [← hhead] at h
  cases hline : head? (c :: rest) <;> simp only [addLine, hc, if_neg hblank, hline]

theorem addLine_of_isHead {head : Head} (h : IsHead line head) :
    addLine printed line = ⟨head, []⟩ :: printed := by
  rw [addLine_of_flush h.trimEnd_ne_nil h.1, head?_eq_some_iff.mpr h.2]

theorem addLine_of_isContinuation (h : IsContinuation line) (last : Printed) :
    addLine (last :: printed) line =
      { last with details := last.details ++ [detail line] } :: printed := by
  obtain ⟨hindented, hne⟩ := isContinuation_iff.mp h
  exact addLine_of_indented hne hindented

/-- A line that is not indented and begins no diagnostic means nothing. -/
theorem addLine_of_not_indented (hhead : ∀ head, ¬ IsHead line head) (h : ¬ IsIndented line) :
    addLine printed line = printed := by
  by_cases hne : Text.trimEnd line = []
  · exact addLine_of_blank hne
  · rw [addLine_of_flush hne h]
    cases hline : head? (Text.trimEnd line) with
    | none => rfl
    | some head => exact absurd ⟨h, head?_eq_some_iff.mp hline⟩ (hhead head)

theorem addLine_of_not_isContinuation (hhead : ∀ head, ¬ IsHead line head)
    (h : ¬ IsContinuation line) : addLine printed line = printed := by
  by_cases hindented : IsIndented line
  · refine addLine_of_blank (Decidable.byContradiction fun hne => h ?_)
    exact isContinuation_iff.mpr ⟨hindented, hne⟩
  · exact addLine_of_not_indented hhead hindented

/-- Before the first diagnostic no line means anything but those that begin one. -/
theorem addLine_nil (hhead : ∀ head, ¬ IsHead line head) : addLine [] line = [] := by
  by_cases h : IsContinuation line
  · obtain ⟨hindented, hne⟩ := isContinuation_iff.mp h
    exact addLine_of_indented hne hindented
  · exact addLine_of_not_isContinuation hhead h

/-! ## Adding sections -/

theorem foldl_addLine_nil {lines : List (List Char)}
    (h : ∀ line ∈ lines, ∀ head, ¬ IsHead line head) : lines.foldl addLine [] = [] := by
  induction lines with
  | nil => rfl
  | cons line lines ih =>
      obtain ⟨hline, hlines⟩ := List.forall_mem_cons.mp h
      rw [List.foldl_cons, addLine_nil hline, ih hlines]

/-- Lines up to the next diagnostic add the details of those that continue the last one. -/
theorem foldl_addLine_cons {lines : List (List Char)}
    (h : ∀ line ∈ lines, ∀ head, ¬ IsHead line head) (last : Printed) :
    lines.foldl addLine (last :: printed) =
      { last with details := last.details ++ (lines.filter (IsContinuation ·)).map detail } ::
        printed := by
  induction lines generalizing last with
  | nil => simp
  | cons line lines ih =>
      obtain ⟨hline, hlines⟩ := List.forall_mem_cons.mp h
      rw [List.foldl_cons]
      by_cases hcont : IsContinuation line
      · rw [addLine_of_isContinuation hcont, ih hlines, List.filter_cons_of_pos (by simpa using hcont),
          List.map_cons, List.append_assoc, List.singleton_append]
      · rw [addLine_of_not_isContinuation hline hcont, ih hlines,
          List.filter_cons_of_neg (by simpa using hcont)]

theorem foldl_addLine_sections (sections : List Section) (printed : List Printed) :
    (sections.flatMap Section.lines).foldl addLine printed =
      (sections.map Section.printed).reverse ++ printed := by
  induction sections generalizing printed with
  | nil => rfl
  | cons s sections ih =>
      rw [List.flatMap_cons, List.foldl_append, Section.lines, List.foldl_cons,
        addLine_of_isHead s.begins, foldl_addLine_cons s.ends, ih, List.map_cons, List.reverse_cons,
        List.append_assoc]
      rfl

/-- The diagnostics of an output are those of its sections. -/
theorem printed_of_sections {output : String} {before : List (List Char)} {sections : List Section}
    (hlines : Text.lines output.toList = before ++ sections.flatMap Section.lines)
    (hbefore : ∀ line ∈ before, ∀ head, ¬ IsHead line head) :
    Checker.printed output = sections.map Section.printed := by
  rw [Checker.printed, hlines, List.foldl_append, foldl_addLine_nil hbefore, foldl_addLine_sections,
    List.append_nil, List.reverse_reverse]

end Checker

open Checker in
/-- Every line that begins a diagnostic is one, in order, with the category and the number that the line
says. Its message has the text of that line and those of the indented lines up to the next such line,
each once and in order. Nothing else in the output counts: without all other lines it says the same. -/
theorem diagnostics_follow_head_lines (h : Host) (output : String) (cwd : Path) :
    ∃ (before : List (List Char)) (sections : List Section),
      Text.lines output.toList = before ++ sections.flatMap Section.lines ∧
      (∀ line ∈ before, ∀ head, ¬ IsHead line head) ∧
      List.Forall₂ (fun s d => d.category = s.head.category ∧ d.code = s.head.code ∧
          d.message.texts =
            s.head.text :: s.continuations.map fun line => String.ofList (Text.trim line))
        sections (diagnostics h output cwd) ∧
      ∀ output', Text.lines output'.toList = sections.flatMap (fun s => s.line :: s.continuations) →
        diagnostics h output' cwd = diagnostics h output cwd := by
  obtain ⟨before, sections, hlines, hbefore⟩ := exists_sections (Text.lines output.toList)
  have hprinted := printed_of_sections hlines hbefore
  refine ⟨before, sections, hlines, hbefore, ?_, fun output' hlines' => ?_⟩
  · rw [diagnostics, hprinted, List.forall₂_map_right_iff, List.forall₂_map_right_iff,
      List.forall₂_same]
    intro s _
    obtain ⟨hcategory, hcode, hmessage⟩ := diagnostic_of_printed h cwd s.printed
    refine ⟨hcategory, hcode, ?_⟩
    rw [hmessage, texts_message, Section.printed, List.map_map]
    rfl
  · have hlines'' : Text.lines output'.toList =
        [] ++ (sections.map Section.trimmed).flatMap Section.lines := by
      rw [hlines', List.flatMap_map]
      rfl
    have hsame : (sections.map Section.trimmed).map Section.printed = sections.map Section.printed := by
      rw [List.map_map]
      exact List.map_congr_left fun s _ => s.printed_trimmed
    rw [diagnostics, diagnostics, hprinted, printed_of_sections hlines'' (List.forall_mem_nil _), hsame]

open Checker in
example : (diagnostics {}
    "  lost\na.ts(1,2): error TS1: m\n      c\n\nnoise\n  d \nwarning TS2: n\n" ⟨"/v"⟩).map
      (fun d => (d.category, d.code, d.message.texts)) =
    [(.error, 1, ["m", "c", "d"]), (.warning, 2, ["n"])] := by decide +kernel

end ScriptWorks

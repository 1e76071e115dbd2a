import ScriptWorks.Checker.Output
import ScriptWorks.Diagnostic.Problem
import ScriptWorks.Proofs.Source.Position

/-!
# Places of checker lines

A checker prints line and column of what it finds. They are looked up in the file and counted again from
the offset that is found, so that they come out as they were printed, or not at all. Only the column
behind a line end comes out as the start of the next line.
-/

namespace ScriptWorks

namespace Checker

variable {h : Host} {cwd : Path} {p : Printed} {name : String} {line character : Nat}

/-- Category, number and message are as they are printed, with a place or without. -/
theorem diagnostic_of_printed (h : Host) (cwd : Path) (p : Printed) :
    (diagnostic h cwd p).category = p.head.category ∧ (diagnostic h cwd p).code = p.head.code ∧
      (diagnostic h cwd p).message = message p.head.text p.details := by
  unfold diagnostic
  split
  · exact ⟨rfl, rfl, rfl⟩
  · dsimp only
    split <;> exact ⟨rfl, rfl, rfl⟩

/-- The place of a diagnostic is the position of the offset that is found for what is printed. -/
theorem place_diagnostic (hplace : p.head.place = some (name, line + 1, character + 1)) :
    Problem.place (diagnostic h cwd p) =
      match (readFile h (cwd.child name).normalize).offsetOf? line character with
      | some offset =>
        let position := (readFile h (cwd.child name).normalize).positionOf offset
        (position.1 + 1, position.2 + 1)
      | none => (0, 0) := by
  unfold diagnostic
  simp only [hplace, Nat.add_sub_cancel]
  cases (readFile h (cwd.child name).normalize).offsetOf? line character <;> rfl

end Checker

/-- The offset that is found for a position has that position, unless the position is behind the line
end of its line: then it has the position of the next line's start. So a line and a column that a checker
prints for a file come out as they are or as no place, but for the column behind the line end. -/
theorem found_positions_are_kept (s : SourceText) (line character : Nat) :
    (∀ offset, s.offsetOf? line character = some offset →
      (¬ s.IsPastLine line character → s.positionOf offset = (line, character)) ∧
      (s.IsPastLine line character → s.positionOf offset = (line + 1, 0))) ∧
    ∀ (h : Host) (cwd : Path) (tag : String) (p : Checker.Printed) (name : String),
      p.head.place = some (name, line + 1, character + 1) →
      Checker.readFile h (cwd.child name).normalize = s →
      let problem := Problem.ofDiagnostic tag (Checker.diagnostic h cwd p)
      (¬ s.IsPastLine line character →
        (problem.line, problem.column) = (line + 1, character + 1) ∨
          s.offsetOf? line character = none ∧ (problem.line, problem.column) = (0, 0)) ∧
      (s.IsPastLine line character → (problem.line, problem.column) = (line + 2, 1)) := by
  constructor
  · refine fun offset hoffset => ⟨fun hline => SourceText.positionOf_of_offsetOf? hline hoffset, ?_⟩
    intro hpast
    obtain ⟨found, hfound, hposition⟩ := hpast.exists_offset
    rw [hoffset, Option.some.injEq] at hfound
    rw [hfound, hposition]
  · intro h cwd tag p name hplace hfile problem
    have hproblem : (problem.line, problem.column) = Problem.place (Checker.diagnostic h cwd p) := rfl
    rw [hproblem, Checker.place_diagnostic hplace, hfile]
    refine ⟨fun hline => ?_, fun hpast => ?_⟩
    · cases hoffset : s.offsetOf? line character with
      | none => exact .inr ⟨rfl, rfl⟩
      | some offset =>
          dsimp only
          rw [SourceText.positionOf_of_offsetOf? hline hoffset]
          exact .inl rfl
    · obtain ⟨offset, hoffset, hposition⟩ := hpast.exists_offset
      rw [hoffset]
      dsimp only
      rw [hposition]

/-- The end of a text without a line end, and a position that its line does not have. -/
theorem found_positions_are_kept_of_end :
    let s : SourceText := ⟨"/v/a.ts", "é\nb"⟩
    let h : Host := { disk := ⟨[(["v"], .dir), (["v", "a.ts"], .file (.text "é\nb") none)]⟩ }
    let p : Checker.Printed := { head := ⟨some ("a.ts", 2, 2), .error, 1005, "';' expected."⟩ }
    s.offsetOf? 1 1 = some 4 ∧ ¬ s.IsPastLine 1 1 ∧ s.positionOf 4 = (1, 1) ∧
      Checker.readFile h ((⟨"/v"⟩ : Path).child "a.ts").normalize = s ∧
      (Problem.ofDiagnostic "TS" (Checker.diagnostic h ⟨"/v"⟩ p)).column = 2 := by
  intro s h p
  have hoffset : s.offsetOf? 1 1 = some 4 := by decide +kernel
  have hline : ¬ s.IsPastLine 1 1 := by
    intro hpast
    obtain ⟨offset, hfound, hposition⟩ := hpast.exists_offset
    rw [hoffset, Option.some.injEq] at hfound
    have hend : s.positionOf 4 ≠ (2, 0) := by decide +kernel
    exact hend (hfound ▸ hposition)
  have hfile : Checker.readFile h ((⟨"/v"⟩ : Path).child "a.ts").normalize = s := by decide +kernel
  obtain ⟨hposition, hplace⟩ := found_positions_are_kept s 1 1
  have hproblem := (hplace h ⟨"/v"⟩ "TS" p "a.ts" rfl hfile).1 hline
  rw [hoffset] at hproblem
  refine ⟨hoffset, hline, (hposition 4 hoffset).1 hline, hfile, ?_⟩
  rcases hproblem with hproblem | ⟨hnone, -⟩
  · exact congrArg Prod.snd hproblem
  · cases hnone

/-- The third column of a line with one character is found on the next line. -/
theorem column_past_line_end_is_on_next_line :
    let s : SourceText := ⟨"/v/a.ts", "a\nb\n"⟩
    let h : Host := { disk := ⟨[(["v"], .dir), (["v", "a.ts"], .file (.text "a\nb\n") none)]⟩ }
    s.offsetOf? 0 2 = some 2 ∧ s.positionOf 2 = (1, 0) ∧
      (Checker.diagnostics h "a.ts(1,3): error TS1005: ';' expected.\n" ⟨"/v"⟩).map
          (fun d => let problem := Problem.ofDiagnostic "TS" d
            (problem.file, problem.line, problem.column)) =
        [("/v/a.ts", 2, 1)] := by
  decide +kernel

end ScriptWorks

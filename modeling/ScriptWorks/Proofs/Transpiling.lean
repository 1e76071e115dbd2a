import ScriptWorks.Script.Transpile
import ScriptWorks.Proofs.Failing

/-!
# What compilers make of sources

Whatever a compiler does, a source gives diagnostics unless it is read to its end without a fault and
its script can be written, and there is a source map exactly if one is asked for.
-/

namespace ScriptWorks.Compiler

open Script

variable {compiler : Compiler}

/-! ## Diagnostics -/

/-- A source that is read to its end without a fault, and whose script can be written. -/
def Accepts (compiler : Compiler) (file : SourceText) (o : Options) : Prop :=
  ∃ m, (compiler.readFile file (levelOf o)).result = .ok m ∧
    (compiler.readFile file (levelOf o)).faults = [] ∧
    ∃ script, compiler.write file m (levelOf o) (o.isOn .sourceMap) = .ok script

/-- Sources that are accepted give no diagnostics, and no others do. -/
theorem diagnostics_transpile_eq_nil_iff {source fileName : String} {o : Options} :
    (compiler.transpile source fileName o).diagnostics = [] ↔
      compiler.Accepts ⟨fileName, source⟩ o := by
  unfold transpile Accepts Reading.diagnostics Reading.allFaults
  dsimp only
  cases hresult : (compiler.readFile ⟨fileName, source⟩ (levelOf o)).result with
  | error f => simp
  | ok m =>
      cases hwrite : compiler.write ⟨fileName, source⟩ m (levelOf o) (o.isOn .sourceMap) with
      | error reason => simp [hwrite]
      | ok script => rcases script with ⟨code, _ | map⟩ <;> simp [hwrite]

/-- What a compiler says of a source is always an error. -/
theorem category_of_mem_transpile {source fileName : String} {o : Options} {d : Diagnostic}
    (hd : d ∈ (compiler.transpile source fileName o).diagnostics) : d.category = .error := by
  have hreading : ∀ {file : SourceText} {r : Reading compiler.Module}, d ∈ r.diagnostics file →
      d.category = .error := by
    intro file r hd
    obtain ⟨f, -, rfl⟩ := List.mem_map.mp hd
    rfl
  unfold transpile at hd
  dsimp only at hd
  split at hd
  · exact hreading hd
  · split at hd
    · rcases List.mem_append.mp hd with hd | hd
      · exact hreading hd
      · rw [List.mem_singleton.mp hd]
        rfl
    · exact hreading hd
    · exact hreading hd

/-! ## Source maps -/

/-- A source map is written exactly if it is asked for. -/
theorem isSome_of_write {file : SourceText} {m : compiler.Module} {level : LanguageLevel}
    {mapped : Bool} {code : String} {map : Option String}
    (h : compiler.write file m level mapped = .ok (code, map)) : map.isSome = mapped := by
  unfold write at h
  split at h
  case h_2 => cases h
  case h_1 stripped hstripped =>
    obtain ⟨⟨printed, mappings⟩, -, h⟩ := bind_eq_ok.mp h
    obtain ⟨text, -, h⟩ := bind_eq_ok.mp h
    cases mapped with
    | false =>
        cases h
        rfl
    | true =>
        obtain ⟨written, -, h⟩ := bind_eq_ok.mp h
        obtain ⟨map, -, h⟩ := bind_eq_ok.mp h
        cases h
        rfl

/-- There is a source map exactly if it is asked for, and then the script ends in its comment. -/
theorem sourceMap_transpile {source fileName code : String} {options : Options}
    (h : (compiler.transpile source fileName options).code = some code) :
    ((compiler.transpile source fileName options).sourceMap.isSome = true ↔
      options.isOn .sourceMap = true) ∧
      (options.isOn .sourceMap = true → ∃ plain, code = withMapComment fileName plain) := by
  unfold transpile at h ⊢
  dsimp only at h ⊢
  split at h
  case h_1 => cases h
  case h_2 m hm =>
    split at h
    case h_1 => cases h
    case h_2 plain hwrite =>
      have hoff := isSome_of_write hwrite
      simp [← hoff]
    case h_3 plain map hwrite =>
      have hon := isSome_of_write hwrite
      cases h
      exact ⟨by simp [← hon], fun _ => ⟨plain, rfl⟩⟩

end ScriptWorks.Compiler

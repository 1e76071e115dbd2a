import ScriptWorks.Config.Project
import ScriptWorks.Engine.Checked
import ScriptWorks.Proofs.Config.Chain
import ScriptWorks.Proofs.Options.Layer
import ScriptWorks.Proofs.Options.Members
import ScriptWorks.Proofs.Failing
import ScriptWorks.Request.Compile
import ScriptWorks.Resolution

/-!
# Options that a file sets itself

What a configuration file itself says of a path option reaches the compilation, whatever the file
extends, if the configuration has no errors.
-/

namespace ScriptWorks

namespace Config

variable {h : Host} {p : Path} {c loaded : Config}

theorem sorted_of_loadChain {fuel : Nat} {visited : List Path}
    (hload : loadChain h fuel visited p = .ok loaded) : Dict.Sorted loaded.compilerOptions := by
  induction fuel generalizing visited p loaded with
  | zero => cases hload
  | succ fuel ih =>
      unfold loadChain at hload
      dsimp only at hload
      split at hload
      case isTrue => cases hload
      case isFalse =>
        split at hload
        case h_1 => cases hload
        case h_2 own hown =>
          have hsorted : Dict.Sorted own.compilerOptions := by
            unfold load at hown
            split at hown
            case h_1 => cases hown
            case h_2 text hread =>
              split at hown
              case h_1 => cases hown
              case h_2 c hparse =>
                cases hown
                have hkeys := sorted_of_parse hparse
                rw [Dict.Sorted] at hkeys ⊢
                rwa [keys_anchorOptions]
          split at hload
          case h_1 =>
            cases hload
            exact hsorted
          case h_2 =>
            split at hload
            case h_1 => cases hload
            case h_2 =>
              split at hload
              case h_1 => cases hload
              case h_2 base hbase =>
                cases hload
                exact (ih hbase).overlay _

theorem sorted_of_loadWithExtends (hload : loadWithExtends h p = .ok loaded) :
    Dict.Sorted loaded.compilerOptions := by
  unfold loadWithExtends at hload
  exact sorted_of_loadChain hload

/-- What a file says itself counts, whatever it extends. -/
theorem get?_of_loadWithExtends {text : String} {k : String} {v : Json}
    (hread : h.readText p = .ok text) (hparse : parse text = .ok c)
    (hown : ownOption k (p, c) = some v) (hload : loadWithExtends h p = .ok loaded) :
    Dict.get? loaded.compilerOptions k = some v := by
  have hlimit := chainLimit_ne_zero
  unfold loadWithExtends at hload
  generalize chainLimit = limit at hlimit hload
  obtain ⟨fuel, rfl⟩ := Nat.exists_eq_succ_of_ne_zero hlimit
  have hget : Dict.get? (anchored (p, c)).compilerOptions k = some v :=
    (get?_anchorOptions p c k).trans hown
  unfold loadChain at hload
  simp only [List.contains_nil, Bool.false_eq_true, if_false, load_eq hread hparse] at hload
  split at hload
  case h_1 =>
    cases hload
    exact hget
  case h_2 =>
    split at hload
    case h_1 => cases hload
    case h_2 =>
      split at hload
      case h_1 => cases hload
      case h_2 base hbase =>
        cases hload
        have hnodup : (Dict.keys (anchored (p, c)).compilerOptions).Nodup := by
          rw [anchored, keys_anchorOptions]
          exact (sorted_of_parse hparse).nodup
        have hover := Dict.get?_overlay hnodup base.compilerOptions k
        rw [hget] at hover
        exact hover

end Config

namespace Options

theorem text?_ofJson {members : Dict Json} (hkeys : (Dict.keys members).Nodup) {o : CompilerOption}
    (ho : o.kind = .path) {s : String} (hs : Dict.get? members o.name = some (.str s)) :
    (ofJson members).1.text? o = some s := by
  have hvalue : o.readValue (.str s) = .ok (.text s) := by
    simp [CompilerOption.readValue, ho, Json.asString?]
  have hsetting := setting?_ofJson hkeys o.name
  simp only [hs, setting?, readSetting?, CompilerOption.ofName?_name, hvalue, Option.bind_some]
    at hsetting
  obtain ⟨v, hget, hv⟩ := Option.map_eq_some_iff.mp hsetting
  cases hv
  rw [text?, hget]
  rfl

theorem get?_of_text?_ofJson {members : Dict Json} (hkeys : (Dict.keys members).Nodup) {o : CompilerOption}
    (ho : o.kind = .path) {s : String} (hs : (ofJson members).1.text? o = some s) :
    Dict.get? members o.name = some (.str s) := by
  have hsetting := setting?_ofJson hkeys o.name
  obtain ⟨v, hget, hv⟩ := Option.bind_eq_some_iff.mp hs
  simp only [setting?, CompilerOption.ofName?_name, hget, Option.map_some] at hsetting
  obtain ⟨j, hj, hread⟩ := Option.bind_eq_some_iff.mp hsetting.symm
  rw [hj]
  simp only [readSetting?, CompilerOption.ofName?_name] at hread
  obtain ⟨v', hv', hsame⟩ := Option.map_eq_some_iff.mp hread
  cases hsame
  simp only [CompilerOption.readValue, ho] at hv'
  cases j with
  | str t =>
      cases hv'
      cases hv
      rfl
  | _ => cases hv'

theorem text?_layer {defaults config request : Options} (hc : config.WellFormed)
    (hr : request.WellFormed) {o : CompilerOption} {s : String}
    (hrequest : request.get? o = none) (hconfig : config.text? o = some s) :
    (layer defaults config request).options.text? o = some s := by
  have hsetting : (layer defaults config request).options.setting? o.name = _ :=
    setting?_layer hc hr o.name
  obtain ⟨v, hv, htext⟩ := Option.bind_eq_some_iff.mp hconfig
  simp only [setting?, CompilerOption.ofName?_name, hrequest, hv, Option.map_none, Option.none_or,
    Option.map_some, Option.some_or] at hsetting
  obtain ⟨v', hv', hsame⟩ := Option.map_eq_some_iff.mp hsetting
  cases hsame
  rw [text?, hv', Option.bind_some, htext]

end Options

theorem Project.exists_of_errors_eq_nil {h : Host} {p : Path} (hgood : (Project.read h p).errors = []) :
    ∃ loaded, Config.loadWithExtends h p = .ok loaded ∧
      (Project.read h p).options = (Options.ofJson loaded.compilerOptions).1 := by
  unfold Project.read at hgood ⊢
  generalize Config.loadWithExtends h p = result at hgood ⊢
  cases result with
  | error e => cases hgood
  | ok loaded => exact ⟨loaded, rfl, rfl⟩

/-- A path option of the configuration itself is the one of the compilation. -/
theorem Compiler.text?_resolveWith {compiler : Compiler} {checker : Option Path} {w : Workstation}
    {p : Path} {text : String} {c : Config} {o : CompilerOption} {s : String} {overrides : Options}
    (hread : w.host.readText p = .ok text) (hparse : Config.parse text = .ok c)
    (ho : o.kind = .path) (hown : Config.ownOption o.name (p, c) = some (.str s))
    (hoverrides : overrides.WellFormed) (hnone : overrides.get? o = none)
    (hgood : ((compiler.engine checker).resolveWith w p overrides).diagnostics = []) :
    ((compiler.engine checker).resolveWith w p overrides).options.text? o = some s := by
  have hproject : ((compiler.engine checker).resolveWith w p overrides).diagnostics =
      (Project.read w.host p).errors := by
    simp only [Engine.resolveWith, Resolved.ofProject, engine]
  have hoptions : ((compiler.engine checker).resolveWith w p overrides).options =
      (Options.layer Options.builtin (Project.read w.host p).options overrides).options := by
    simp only [Engine.resolveWith, Resolved.ofProject, engine]
  rw [hproject] at hgood
  rw [hoptions]
  obtain ⟨loaded, hload, hsame⟩ := Project.exists_of_errors_eq_nil hgood
  have hget := Config.get?_of_loadWithExtends hread hparse hown hload
  have hsorted := Config.sorted_of_loadWithExtends hload
  have htext := Options.text?_ofJson hsorted.nodup ho hget
  exact Options.text?_layer (hsame ▸ .ofJson _) hoverrides hnone (hsame ▸ htext)

end ScriptWorks

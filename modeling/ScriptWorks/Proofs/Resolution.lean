import ScriptWorks.Proofs.Options.Layer
import ScriptWorks.Request.Check
import ScriptWorks.Request.Compile
import ScriptWorks.Resolution

/-!
# Resolved options

However options are resolved, they are the three layers laid over one another: the defaults, the
configuration that was chosen, and what the request sets.
-/

namespace ScriptWorks

/-! ## What requests set -/

theorem CompileRequest.overrides_wellFormed (h : Host) (r : CompileRequest) :
    (r.overrides h).WellFormed := by
  unfold CompileRequest.overrides
  cases r.outputDir <;> cases r.sourceMap
  · exact .empty
  · exact Options.WellFormed.empty.set _ _
  · exact Options.WellFormed.empty.set _ _
  · exact (Options.WellFormed.empty.set _ _).set _ _

theorem CheckRequest.overrides_wellFormed (r : CheckRequest) : r.overrides.WellFormed := by
  unfold CheckRequest.overrides
  cases r.strict <;> cases r.includeDeclarations
  · exact .empty
  · exact Options.WellFormed.empty.set _ _
  · exact Options.WellFormed.empty.set _ _
  · exact (Options.WellFormed.empty.set _ _).set _ _

/-! ## The layers of a resolution -/

/-- Options and origins are those of the layers, with an origin for every key and for no other. -/
structure Resolved.IsLayered (r : Resolved) (config overrides : Options) : Prop where
  layers : (⟨r.options, r.origins⟩ : Layered) = Options.layer Options.builtin config overrides
  origins : ∀ k, k ∈ Dict.keys r.origins ↔ k ∈ r.options.keys

theorem Resolved.ofProject_isLayered (configPath : Option Path) (project : Project)
    (overrides : Options) :
    (Resolved.ofProject configPath project overrides).IsLayered project.options overrides :=
  ⟨rfl, fun _ => Options.mem_origins_iff⟩

namespace Engine

variable {ω π : Type} [FileSystem ω]

/-- The options of a configuration that was found; none where none was. -/
def configOptions (e : Engine ω π) (w : ω) (config : Option Path) : Options :=
  (config.map fun p => (e.readProject w p).options).getD {}

theorem resolve_isLayered (e : Engine ω π) (w : ω) (start : Path) (overrides : Options) :
    (e.resolve w start overrides).IsLayered (e.configOptions w (e.findConfig w start)) overrides := by
  unfold Engine.resolve
  cases e.findConfig w start with
  | none => exact Resolved.ofProject_isLayered none {} overrides
  | some config => exact Resolved.ofProject_isLayered (some config) (e.readProject w config) overrides

end Engine

/-- A merged set holds a key if a layer does, with the value of the highest such layer, which is the
key's origin; no other key has an origin. All three ways to resolve options give the merged set of the
defaults, the configuration and the overrides. -/
theorem layers_prevail_in_order :
    (∀ defaults config request : Options,
      defaults.WellFormed → config.WellFormed → request.WellFormed →
      let layers := Options.layersOf defaults config request
      let merged := Options.layer defaults config request
      merged.options.WellFormed ∧
      ∀ k : String,
        (k ∈ merged.options.keys ↔ ∃ g, k ∈ (layers g).keys) ∧
        (∀ g, Options.Prevails layers g k →
          ∃ v, (layers g).setting? k = some v ∧ merged.options.setting? k = some v) ∧
        (∀ g, merged.origin? k = some g ↔ Options.Prevails layers g k) ∧
        (k ∈ Dict.keys merged.origins ↔ k ∈ merged.options.keys)) ∧
    (∀ {ω π : Type} [FileSystem ω] (e : Engine ω π) (w : ω) (overrides : Options),
      (∀ start, (e.resolve w start overrides).IsLayered
        (e.configOptions w (e.findConfig w start)) overrides) ∧
      (∀ config, (e.resolveWith w config overrides).IsLayered
        (e.readProject w config).options overrides) ∧
      (∀ dir, match e.resolveProject w dir overrides with
        | .ok r => FileSystem.isFile w (dir.child e.configFileName) = true ∧
            r.IsLayered (e.readProject w (dir.child e.configFileName)).options overrides
        | .error failure => FileSystem.isFile w (dir.child e.configFileName) = false ∧
            failure = .projectConfigNotFound dir e.configFileName)) := by
  constructor
  · intro defaults config request hd hc hr layers merged
    refine ⟨hd.layer hc hr, fun k => ⟨Options.mem_keys_layer, fun g hg => ?_, fun g => ?_, ?_⟩⟩
    · exact Options.setting?_of_prevails hd hc hr hg
    · exact Options.origin?_eq_some_iff
    · exact Options.mem_origins_iff
  · intro ω π _ e w overrides
    refine ⟨fun start => e.resolve_isLayered w start overrides, fun config => ?_, fun dir => ?_⟩
    · exact Resolved.ofProject_isLayered (some config) (e.readProject w config) overrides
    · cases hf : FileSystem.isFile w (dir.child e.configFileName) with
      | false => simp [Engine.resolveProject, hf]
      | true =>
          simp only [Engine.resolveProject, hf, if_true, true_and]
          exact Resolved.ofProject_isLayered _ (e.readProject w _) overrides

/-- A request for source maps over a configuration with a target and a key outside the schema. -/
theorem layers_prevail_in_order_of_request :
    let config := (Options.ofJson [("jsx", .str "react"), ("sourceMap", .bool false),
      ("target", .str "ES5")]).1
    let request := ({ sourceMap := some true } : CompileRequest).overrides {}
    let merged := Options.layer Options.builtin config request
    Options.builtin.WellFormed ∧ config.WellFormed ∧ request.WellFormed ∧
      merged.origin? "sourceMap" = some .request ∧ merged.origin? "jsx" = some .config ∧
      merged.origin? "module" = some .default ∧
      merged.options.setting? "sourceMap" = some (.option (.bool true)) ∧
      merged.options.setting? "jsx" = some (.extra (.str "react")) := by
  intro config request merged
  have hc : config.WellFormed := .ofJson _
  have hr : request.WellFormed := CompileRequest.overrides_wellFormed _ _
  obtain ⟨-, h⟩ := layers_prevail_in_order.1 Options.builtin config request .builtin hc hr
  have hmap : Options.Prevails (Options.layersOf Options.builtin config request) .request "sourceMap" :=
    ⟨by decide, fun g' => by cases g' <;> decide⟩
  have hjsx : Options.Prevails (Options.layersOf Options.builtin config request) .config "jsx" :=
    ⟨by decide, fun g' => by cases g' <;> decide⟩
  have hmodule : Options.Prevails (Options.layersOf Options.builtin config request) .default "module" :=
    ⟨by decide, fun g' => by cases g' <;> decide⟩
  refine ⟨.builtin, hc, hr, ((h _).2.2.1 _).mpr hmap, ((h _).2.2.1 _).mpr hjsx,
    ((h _).2.2.1 _).mpr hmodule, ?_, ?_⟩
  · obtain ⟨v, hv, hmerged⟩ := (h _).2.1 _ hmap
    rw [hmerged, ← hv]; rfl
  · obtain ⟨v, hv, hmerged⟩ := (h _).2.1 _ hjsx
    rw [hmerged, ← hv]; rfl

end ScriptWorks

import ScriptWorks.Proofs.Config.Accepted
import ScriptWorks.Proofs.FileSystem.Rewriting
import ScriptWorks.Proofs.Manager

/-!
# Updates one after another

Two updates of a configuration file come to one update with the settings of both, of which the later
ones count.
-/

namespace ScriptWorks.Manager

open Json (nestingLimit)

/-! ## Changed options -/

section

variable {m₁ m₂ old : Dict Json}

theorem foldl_change_overlay (h₁ : m₁.Sorted) (h₂ : m₂.Sorted) (hold : old.Sorted) :
    (Dict.overlay m₁ m₂).foldl change old = m₂.foldl change (m₁.foldl change old) := by
  refine (sorted_foldl_change _ hold).ext (sorted_foldl_change _ (sorted_foldl_change _ hold))
    fun k => ?_
  rw [get?_foldl_change (h₁.overlay _).nodup, get?_foldl_change h₂.nodup]
  unfold settled
  rw [Dict.get?_overlay h₂.nodup, get?_foldl_change h₁.nodup]
  unfold settled
  cases Dict.get? m₂ k with
  | none => rfl
  | some v => cases v <;> rfl

/-- Settings that are applied again change nothing. -/
theorem foldl_change_again (h : m₁.Sorted) (hold : old.Sorted) :
    m₁.foldl change (m₁.foldl change old) = m₁.foldl change old := by
  have hnew := sorted_foldl_change m₁ hold
  refine (sorted_foldl_change _ hnew).ext hnew fun k => ?_
  rw [get?_foldl_change h.nodup, get?_foldl_change h.nodup]
  unfold settled
  split
  · rw [get?_foldl_change h.nodup]
    unfold settled
    simp [*]
  · rfl
  · rfl

end

/-! ## Changed documents -/

section

variable {m₁ m₂ : Dict Json} {config : Json}

/-- Settings change the options of a document, or there are none that could be changed. -/
theorem applyOptions_eq (h : config.Canonical) :
    (∃ root old : Dict Json, old.Sorted ∧ ∀ settings : Dict Json, applyOptions settings config =
        .obj (Dict.insert root "compilerOptions" (.obj (settings.foldl change old)))) ∨
      ∀ settings, applyOptions settings config = config := by
  cases config with
  | obj root =>
      cases ho : (Dict.get? root "compilerOptions").getD (.obj []) with
      | obj old => exact .inl ⟨root, old, sorted_options h ho, fun _ => by simp only [applyOptions, ho]⟩
      | _ => exact .inr fun _ => by simp only [applyOptions, ho]
  | _ => exact .inr fun _ => rfl

theorem applyOptions_insert (settings root old : Dict Json) :
    applyOptions settings (.obj (Dict.insert root "compilerOptions" (.obj old))) =
      .obj (Dict.insert root "compilerOptions" (.obj (settings.foldl change old))) := by
  unfold applyOptions
  simp only [Dict.get?_insert, if_true, Option.getD_some, Dict.insert_insert]

theorem applyOptions_overlay (h₁ : m₁.Sorted) (h₂ : m₂.Sorted) (hconfig : config.Canonical) :
    applyOptions (Dict.overlay m₁ m₂) config = applyOptions m₂ (applyOptions m₁ config) := by
  rcases applyOptions_eq hconfig with ⟨root, old, hold, heq⟩ | heq
  · rw [heq, heq, applyOptions_insert, foldl_change_overlay h₁ h₂ hold]
  · rw [heq, heq, heq]

theorem applyOptions_again (h : m₁.Sorted) (hconfig : config.Canonical) :
    applyOptions m₁ (applyOptions m₁ config) = applyOptions m₁ config := by
  rcases applyOptions_eq hconfig with ⟨root, old, hold, heq⟩ | heq
  · rw [heq, applyOptions_insert, foldl_change_again h hold]
  · rw [heq, heq]

theorem applyOptions_obj (settings root : Dict Json) :
    ∃ after, applyOptions settings (.obj root) = .obj after := by
  simp only [applyOptions]
  split
  · exact ⟨_, rfl⟩
  · exact ⟨_, rfl⟩

end

/-! ## Files -/

variable {ω : Type} [FileSystem ω] {w w' w₁ w₂ : ω} {fileName : String} {path : Path}
  {settings m₁ m₂ : Dict Json} {r r₁ r₂ : Written}

/-- An update does not lead to another file the next time. -/
theorem configPath_of_rewritten (hname : (⟨fileName⟩ : Path).isAbsolute = false) {s : String}
    (h : Rewritten w (configPath w fileName path) s w') :
    configPath w' fileName path = configPath w fileName path := by
  unfold configPath at h ⊢
  by_cases hlast : path.fileName? = some fileName
  · rw [if_pos (.inl hlast), if_pos (.inl hlast)]
  cases hfile : FileSystem.isFile w path with
  | true =>
      rw [hfile, if_pos (.inr rfl)] at h
      rw [if_pos (.inr h.isFile), if_pos (.inr rfl)]
  | false =>
      have hneither : ¬ (path.fileName? = some fileName ∨ FileSystem.isFile w path = true) := by
        simp [hlast, hfile]
      rw [if_neg hneither] at h
      simp [hlast, h.above rfl hname hfile]

section

variable [RewritableFileSystem ω]

/-- After an update of a file the next one starts from the document that it wrote. -/
theorem update_of_update (hname : (⟨fileName⟩ : Path).isAbsolute = false)
    (h : update w fileName path settings = (.ok r, w₁)) (hr : r.config.Ordinary (nestingLimit - 1))
    (settings' : Dict Json) : update w₁ fileName path settings' = (.ok r₂, w₂) ↔
      write w₁ r.path (applyOptions settings' r.config) = (.ok r₂, w₂) := by
  obtain ⟨hfile, text, root, -, -, hwrite⟩ := update_eq_ok_iff.mp h
  obtain ⟨rfl, -, hwritten⟩ := write_eq_ok_iff.mp hwrite
  have hrewritten := RewritableFileSystem.rewritten hfile hwritten
  obtain ⟨after, hafter⟩ := applyOptions_obj settings root
  have hparse := parse_fileText hr
  rw [update_eq_ok_iff, configPath_of_rewritten hname hrewritten]
  dsimp only at hparse ⊢
  rw [hafter] at hparse hrewritten ⊢
  constructor
  · rintro ⟨-, text', root', hread, hparse', hwrite'⟩
    rw [hrewritten.readText] at hread
    cases hread
    rw [hparse] at hparse'
    cases hparse'
    exact hwrite'
  · exact fun hwrite' => ⟨hrewritten.isFile, _, after, hrewritten.readText, hparse, hwrite'⟩

/-- Two updates of a configuration file leave the text that one update with both settings leaves, of which
the later count, and an update that is repeated leaves the text as it was. The name of the file is
relative; an absolute one could name a file that the given path leads through. And the document must be
read as it was written after the first update: one in which an object starts with the key that announces
an embedded text is not. -/
theorem updates_compose (hname : (⟨fileName⟩ : Path).isAbsolute = false) (h₁ : m₁.Sorted)
    (h₂ : m₂.Sorted) (hfirst : update w fileName path m₁ = (.ok r₁, w₁))
    (hr : r₁.config.Ordinary (nestingLimit - 1)) :
    (∀ r₂ w₂, update w₁ fileName path m₂ = (.ok r₂, w₂) → r₂.path = r₁.path ∧
      ∃ w', update w fileName path (Dict.overlay m₁ m₂) = (.ok r₂, w') ∧
        FileSystem.readText w₂ r₂.path = .ok (fileText r₂.config) ∧
        FileSystem.readText w' r₂.path = .ok (fileText r₂.config)) ∧
    ∃ w₂, update w₁ fileName path m₁ = (.ok r₁, w₂) ∧
      FileSystem.readText w₁ r₁.path = .ok (fileText r₁.config) ∧
      FileSystem.readText w₂ r₁.path = .ok (fileText r₁.config) := by
  have hagain {settings : Dict Json} {r : Written} {w₂ : ω} :
      update w₁ fileName path settings = (.ok r, w₂) ↔
        write w₁ r₁.path (applyOptions settings r₁.config) = (.ok r, w₂) :=
    update_of_update hname hfirst hr settings
  obtain ⟨hfile, text, root, hread, hparse, hwrite⟩ := update_eq_ok_iff.mp hfirst
  obtain ⟨rfl, hvalid, hwritten⟩ := write_eq_ok_iff.mp hwrite
  have hdocument := Jsonc.canonical_of_parse hparse
  have hrewritten := RewritableFileSystem.rewritten hfile hwritten
  constructor
  · intro r₂ w₂ hsecond
    obtain ⟨rfl, hvalid₂, hwritten₂⟩ := write_eq_ok_iff.mp (hagain.mp hsecond)
    obtain ⟨w', hw'⟩ := RewritableFileSystem.writable hfile hwritten
      (fileText (applyOptions m₂ (applyOptions m₁ (.obj root))))
    refine ⟨rfl, w', ?_, (RewritableFileSystem.rewritten hrewritten.isFile hwritten₂).readText,
      (RewritableFileSystem.rewritten hfile hw').readText⟩
    refine update_eq_ok_iff.mpr ⟨hfile, text, root, hread, hparse, ?_⟩
    rw [applyOptions_overlay h₁ h₂ hdocument]
    exact write_eq_ok_iff.mpr ⟨rfl, hvalid₂, hw'⟩
  · obtain ⟨w₂, hw₂⟩ := hrewritten.writable (fileText (applyOptions m₁ (.obj root)))
    refine ⟨w₂, hagain.mpr ?_, hrewritten.readText,
      (RewritableFileSystem.rewritten hrewritten.isFile hw₂).readText⟩
    dsimp only
    rw [applyOptions_again h₁ hdocument]
    exact write_eq_ok_iff.mpr ⟨rfl, hvalid, hw₂⟩

end

/-- An option is taken away and set again. -/
theorem updates_compose_of_strict :
    let document : Dict Json := [("compilerOptions", .obj [("strict", .bool true)])]
    let p : Path := ⟨"/p/tsconfig.json"⟩
    let w : Rehearsal := { memory := { files := [(p, fileText (.obj document))] } }
    let m₁ : Dict Json := [("strict", .null)]
    let m₂ : Dict Json := [("strict", .bool false)]
    ∃ r₁ w₁ r₂ w₂ w', update w "tsconfig.json" ⟨"/p"⟩ m₁ = (.ok r₁, w₁) ∧
      r₁.config.Ordinary (nestingLimit - 1) ∧
      update w₁ "tsconfig.json" ⟨"/p"⟩ m₂ = (.ok r₂, w₂) ∧
      update w "tsconfig.json" ⟨"/p"⟩ (Dict.overlay m₁ m₂) = (.ok r₂, w') ∧
      FileSystem.readText w' r₂.path = FileSystem.readText w₂ r₂.path := by
  intro document p w m₁ m₂
  have hok₁ : (update w "tsconfig.json" ⟨"/p"⟩ m₁).1.isOk = true := by decide +kernel
  obtain ⟨r₁, hr₁⟩ := exists_of_isOk hok₁
  have hfirst : update w "tsconfig.json" ⟨"/p"⟩ m₁ = (.ok r₁, _) := Prod.ext hr₁ rfl
  have hok₂ (w₁ : Rehearsal) (h : w₁ = (update w "tsconfig.json" ⟨"/p"⟩ m₁).2) :
      (update w₁ "tsconfig.json" ⟨"/p"⟩ m₂).1.isOk = true := by
    rw [h]
    decide +kernel
  obtain ⟨r₂, hr₂⟩ := exists_of_isOk (hok₂ _ rfl)
  have hsecond : update _ "tsconfig.json" ⟨"/p"⟩ m₂ = (.ok r₂, _) := Prod.ext hr₂ rfl
  have hconfig : r₁.config.Ordinary (nestingLimit - 1) := by
    have ordinary {options : Dict Json} (h : (Json.obj options).Ordinary 126) :
        (Json.obj [("compilerOptions", .obj options)]).Ordinary (nestingLimit - 1) :=
      .obj (List.pairwise_singleton _ _) (List.forall_mem_singleton.mpr h) (by
        rintro m ⟨⟩
        show "compilerOptions" ≠ Json.embeddedKey
        decide)
    have hdocument : (Json.obj document).Ordinary (nestingLimit - 1) := ordinary <|
      .obj (by decide) (List.forall_mem_singleton.mpr .bool) (by rintro m ⟨⟩; decide)
    obtain ⟨-, text, root, hread, hparse, hwrite⟩ := update_eq_ok_iff.mp hfirst
    obtain ⟨rfl, -⟩ := write_eq_ok_iff.mp hwrite
    have htext : (FileSystem.readText w (configPath w "tsconfig.json" ⟨"/p"⟩)).toOption =
        some (fileText (.obj document)) := by decide +kernel
    rw [hread] at htext
    cases htext
    rw [parse_fileText hdocument] at hparse
    cases hparse
    have hafter : applyOptions m₁ (.obj document) = .obj [("compilerOptions", .obj [])] := rfl
    rw [hafter]
    exact ordinary (.obj .nil nofun nofun)
  obtain ⟨-, w', hboth, hread, hread'⟩ :=
    (updates_compose (by decide) (by decide) (by decide) hfirst hconfig).1 _ _ hsecond
  exact ⟨r₁, _, r₂, _, w', hfirst, hconfig, hsecond, hboth, hread'.trans hread.symm⟩

/-- A file in which an option is taken away, so that what is left starts with the key that announces an
embedded text. The next update reads the text instead, even if it changes nothing. -/
theorem updates_do_not_compose_with_embedded_key :
    let text := "\x7b\"compilerOptions\": \x7b\"a\": 1, \"" ++ Json.embeddedKey ++
      "\": \"\x7b\x7d\"\x7d\x7d"
    let p : Path := ⟨"/p/tsconfig.json"⟩
    let w : Rehearsal := { memory := { files := [(p, text)] } }
    let settings : Dict Json := [("a", .null)]
    let first := update w "tsconfig.json" p settings
    let second := update first.2 "tsconfig.json" p []
    let both := update w "tsconfig.json" p (Dict.overlay settings [])
    let again := update first.2 "tsconfig.json" p settings
    (first.1.isOk ∧ second.1.isOk ∧ both.1.isOk ∧ again.1.isOk) ∧
      (FileSystem.readText both.2 p).toOption ≠ (FileSystem.readText second.2 p).toOption ∧
      (FileSystem.readText again.2 p).toOption ≠ (FileSystem.readText first.2 p).toOption := by
  decide +kernel

end ScriptWorks.Manager

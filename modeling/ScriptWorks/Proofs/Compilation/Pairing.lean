import ScriptWorks.Small.Compiler
import ScriptWorks.Proofs.Compilation.Inputs
import ScriptWorks.Proofs.Compilation.Outcome
import ScriptWorks.Proofs.Program.Maps

/-!
# Scripts and maps that match

The comment in a script, the path of the script and that of its map are computed in three places. They
agree for every source, but for those whose script has no name and for one that is itself the root
directory.
-/

namespace ScriptWorks

open ScriptWorks.Path

variable {compiler : Compiler} {checker : Option Path} {r : CompileRequest} {w left : Workstation}
  {p : Path}

/-- The script of a file ends as the one beside it. -/
theorem Draft.endsAsScript {x : List Char} (hx : EndsIn p x) (hloud : IsLoud x) (w : Workstation)
    (resolved : Resolved) : EndsAsScript (Draft.scriptPath w p resolved) x False := by
  have hends := (hx.beside_scriptPath hloud).endsIn
  refine .inr ⟨not_false, ?_⟩
  rcases Draft.scriptPath_cases w p resolved with heq | ⟨dir, name, hname, heq⟩ <;> rw [heq]
  · exact hends
  · obtain ⟨hnameLoud, hnameUp⟩ := isLoud_of_fileName? hname
    have hname' : EndsIn (⟨name⟩ : Path) name.toList := ⟨hnameLoud.noSlash, .inl rfl⟩
    have hpiece : name.toList = scriptPiece x := by
      rcases scriptName_of_endsIn hx hloud with ⟨-, hnone, -⟩ | ⟨-, hsome, -⟩
      · rw [hnone] at hname
        cases hname
      · rw [hsome] at hname
        rw [← Option.some.inj hname, String.toList_ofList]
    exact hpiece ▸ hname'.join dir

/-- A map that exists exactly if it is asked for is written. -/
theorem Draft.outputs_eq {script : Path} {options : Options} {code : String} {map : Option String}
    (hmap : map.isSome = true ↔ options.isOn .sourceMap = true) (p : Path) :
    Draft.outputs script options code map =
      (ScriptPair.ofScript p script code map).script ::
        (ScriptPair.ofScript p script code map).map.toList := by
  unfold Draft.outputs ScriptPair.ofScript
  cases map with
  | none => simp
  | some text => rw [if_pos (hmap.mp rfl)]

/-- What a file is compiled to: nothing, or its script and the map. -/
theorem Finds.exists_scriptPair {f : Finding}
    (h : Finds (compiler.engine checker) r w (.file p) f left) :
    (f.isComplete = false ∧ f.files = []) ∨ ∃ x : ScriptPair, x.source = p ∧
      f.files = x.script :: x.map.toList ∧
      x.Matches ((compiler.engine checker).resolve w p (r.overrides w.host)).options False := by
  cases h with
  | fileMisconfigured | fileBroken | noScript => exact .inl ⟨rfl, rfl⟩
  | @transpiled _ resolved source t code left hfile hresolve _ _ hrun hcode =>
      subst hresolve
      obtain ⟨x, hx, hloud⟩ := Host.endsIn_of_isFile hfile
      have hscript := Draft.endsAsScript hx hloud w
        ((compiler.engine checker).resolve w p (r.overrides w.host))
      obtain rfl : compiler.transpile source p.text _ = t := by injection hrun
      exact .inr ⟨_, rfl, Draft.outputs_eq (Compiler.sourceMap_transpile hcode).1 p,
        ScriptPair.matches_ofScript hx hloud hscript hcode⟩

/-- Every script has a map exactly if source maps are asked for. The map is named as its script with
`.map` after it, and the comment in the script names the map, unless the script has no name while the
source is not itself the root directory, or the other way round. All scripts come first, in the order of
their sources, then the maps. -/
theorem scripts_and_maps_match (compiler : Compiler) (w : Workstation) :
    (∀ (fs : List Path) (options : Options),
      let p := Program.build compiler w.host fs options
      (p.pairs.map (·.source)).Sublist fs ∧
      (∀ x ∈ p.pairs, x.Matches options (Program.IsRootItself options x.source)) ∧
      (p.emit.skipped = true → p.emit.files = []) ∧
      (p.emit.skipped = false →
        p.emit.files.Perm (p.pairs.map (·.script) ++ p.pairs.filterMap (·.map)) ∧
        ((∀ x ∈ p.pairs, ¬ Program.IsRootItself options x.source) →
          p.emit.files = p.pairs.map (·.script) ++ p.pairs.filterMap (·.map)))) ∧
    (∀ (checker : Option Path) (r : CompileRequest) (p : Path) (w' : Workstation) (c : Compilation),
      r.target = .ok (.file p) →
      Compilation.ofRequest (compiler.engine checker) r w = (.ok c, w') →
      (c.success = false ∧ c.outputFiles = []) ∨ ∃ x : ScriptPair, x.source = p ∧
        x.Matches ((compiler.engine checker).resolve w p (r.overrides w.host)).options False ∧
        c.outputFiles <+: x.script :: x.map.toList ∧
        (c.success = true → c.outputFiles = x.script :: x.map.toList)) := by
  refine ⟨fun fs options => ?_, fun checker r p w' c htarget hrequest => ?_⟩
  · refine ⟨Program.sublist_pairs_build, fun x hx => Program.matches_of_mem_pairs hx, fun hskipped => ?_,
      Program.emit_files_build⟩
    rw [Program.emit_files_eq_pairs, if_pos hskipped]
  · obtain ⟨target, f, left, htarget', hfinds, hcommit⟩ := Compilation.exists_of_ofRequest hrequest
    rw [htarget, Except.ok.injEq] at htarget'
    subst htarget'
    obtain ⟨rest, stop, after, hfiles, -, -, -, -, hsuccess⟩ := (Draft.commit_accountsFor hcommit).written
    rcases hfinds.exists_scriptPair with ⟨hincomplete, hnil⟩ | ⟨x, hx, hpair, hmatches⟩
    · rw [hnil] at hfiles
      refine .inl ⟨Bool.eq_false_iff.mpr fun hgood => ?_, (List.append_eq_nil_iff.mp hfiles.symm).1⟩
      rw [(hsuccess.mp hgood).1] at hincomplete
      cases hincomplete
    · rw [hpair] at hfiles
      refine .inr ⟨x, hx, hmatches, ⟨rest, hfiles.symm⟩, fun hgood => ?_⟩
      rw [hfiles, (hsuccess.mp hgood).2.1, List.append_nil]

/-- Two sources of a program, and one of them as a file of its own. -/
theorem scripts_and_maps_match_of_two :
    let h : Host :=
      { disk := ⟨[(["v"], .dir), (["v", "lib"], .dir),
          (["v", "a.ts"], .file (.text "const a: number = 1;\n") none),
          (["v", "lib", "b.mts"], .file (.text "const b: number = 2;\n") none)]⟩ }
    let compiler : Compiler := .smallMapping "AAAA,MAAM,IAAY"
    let fs : List Path := [⟨"/v/a.ts"⟩, ⟨"/v/lib/b.mts"⟩]
    let options := (Options.ofJson [("sourceMap", .bool true), ("outDir", .str "/v/out")]).1
    let p := Program.build compiler h fs options
    let r : CompileRequest := { filePath := some ⟨"/v/a.ts"⟩, sourceMap := some true }
    p.emit.files.map (·.path.text) =
        ["/v/out/a.js", "/v/out/lib/b.mjs", "/v/out/a.js.map", "/v/out/lib/b.mjs.map"] ∧
      p.emit.files = p.pairs.map (·.script) ++ p.pairs.filterMap (·.map) ∧
      (∀ x ∈ p.pairs, ∀ m ∈ x.map, Script.namedMap? x.script.content = m.path.fileName?) ∧
      ∃ c w', Compilation.ofRequest (compiler.engine none) r { host := h } = (.ok c, w') ∧
        c.success = true ∧ c.outputFiles.map (·.path.text) = ["/v/a.js", "/v/a.js.map"] ∧
        ∃ x : ScriptPair, x.source = ⟨"/v/a.ts"⟩ ∧ c.outputFiles = x.script :: x.map.toList ∧
          ∀ m ∈ x.map, Script.namedMap? x.script.content = m.path.fileName? := by
  intro h compiler fs options p r
  obtain ⟨hprogram, hfile⟩ := scripts_and_maps_match compiler { host := h }
  obtain ⟨hsources, hmatches, -, hemitted⟩ := hprogram fs options
  have hroot : options.text? .rootDir = none := by decide +kernel
  have hnotRoot : ∀ x ∈ p.pairs, ¬ Program.IsRootItself options x.source := by
    rintro x - ⟨-, dir, hdir, -⟩
    rw [hroot] at hdir
    cases hdir
  have hnamed : ∀ q ∈ fs, q.scriptPath.fileName? ≠ none ∧ Script.FitsLine q := by
    decide +kernel
  refine ⟨by decide +kernel, (hemitted (by decide +kernel)).2 hnotRoot, fun x hx m hm => ?_, ?_⟩
  · obtain ⟨hsome, hfits⟩ := hnamed x.source (hsources.subset (List.mem_map_of_mem hx))
    exact ((hmatches x hx).named hfits m hm).mpr (iff_of_false hsome (hnotRoot x hx))
  · have hresult : (Compilation.ofRequest (compiler.engine none) r { host := h }).1.toOption.map
        (fun c => (c.success, c.outputFiles.map (·.path.text))) =
        some (true, ["/v/a.js", "/v/a.js.map"]) := by
      decide +kernel
    obtain ⟨c, w', hrequest, hfound⟩ := exists_ok_of_toOption_map hresult
    obtain ⟨hsuccess, hpaths⟩ := Prod.mk.inj hfound
    rcases hfile none r ⟨"/v/a.ts"⟩ w' c rfl hrequest with ⟨hfailed, -⟩ | ⟨x, hx, hmatches, -, hall⟩
    · rw [hsuccess] at hfailed
      cases hfailed
    · obtain ⟨hsome, hfits⟩ := hnamed ⟨"/v/a.ts"⟩ List.mem_cons_self
      refine ⟨c, w', hrequest, hsuccess, hpaths, x, hx, hall hsuccess, fun m hm => ?_⟩
      exact (hmatches.named (hx ▸ hfits) m hm).mpr (iff_of_false (hx ▸ hsome) id)

/-- The script of a source that is itself the root directory comes after its map, which it does not name.
Nor does a script without a name, or one whose name goes over two lines. -/
theorem nameless_scripts_miss_their_maps :
    let h : Host :=
      { disk := ⟨[(["v"], .dir), (["v", "a.ts"], .file (.text "const a = 1;\n") none),
          (["v", "..ts"], .file (.text "const a = 1;\n") none),
          (["v", "a\nb.ts"], .file (.text "const a = 1;\n") none)]⟩ }
    let compiler : Compiler := .smallMapping "AAAA,MAAM,IAAI"
    let written := fun (source : Path) (members : List (String × Json)) =>
      let options := (Options.ofJson (("sourceMap", .bool true) :: members)).1
      (Program.build compiler h [source] options).emit.files.map fun f =>
        (f.path.text, f.path.fileName?, Script.namedMap? f.content)
    written ⟨"/v/a.ts"⟩ [("outDir", .str "/v/out"), ("rootDir", .str "/v/a.ts")] =
        [("/v/out/.map", some ".map", none), ("/v/out/", some "out", some "a.js.map")] ∧
      written ⟨"/v/..ts"⟩ [] =
        [("/v/..", none, some ".map"), ("/v/...map", some "...map", none)] ∧
      written ⟨"/v/a\nb.ts"⟩ [] =
        [("/v/a\nb.js", some "a\nb.js", some "a"), ("/v/a\nb.js.map", some "a\nb.js.map", none)] := by
  decide +kernel

end ScriptWorks

import Mathlib.Data.List.Basic
import ScriptWorks.Proofs.Compilation.Asking

/-!
# Compiling again

What a compilation writes is nothing that it looks at. Carried out a second time, a request finds what it
found, and writes the same files to the same places.
-/

namespace ScriptWorks

open BareFileSystem GainingFileSystem

variable {ω π : Type} [FileSystem ω] {e : Engine ω π} {r : CompileRequest} {w w' : ω}
  {target : CompileTarget}

/-! ## Writing what is found -/

theorem Draft.writeAll_of_writes {fs : List OutputFile} (h : Writes w fs w') :
    writeAll fs w = ((fs, none), w') := by
  induction h with
  | nil => rfl
  | cons hf _ ih => simp only [writeAll, hf, ih]

theorem Draft.commit_of_writes {d : Draft} (h : Writes w d.files w') :
    d.commit w = ({ success := !d.incomplete && !hasErrors d.diagnostics
                    diagnostics := d.diagnostics
                    outputFiles := d.files }, w') := by
  unfold commit
  simp only [writeAll_of_writes h, Option.toList_none, List.append_nil]

/-- Whatever is found of the target can be written. -/
def WritesWork (e : Engine ω π) (r : CompileRequest) (w : ω) (target : CompileTarget) : Prop :=
  ∀ f left, Finds e r w target f left → ∃ w', Writes left f.files w'

/-- Where a compilation succeeds, all that it found was written. -/
theorem WritesWork.of_success [LawfulFileSystem ω] {c : Compilation} {w₁ : ω}
    (htarget : r.target = .ok target) (h : Compilation.ofRequest e r w = (.ok c, w₁))
    (hsuccess : c.success = true) : WritesWork e r w target := by
  intro f left hfinds
  unfold Compilation.ofRequest at h
  simp only [htarget, Compilation.ofTarget, hfinds.prepare, Prod.mk.injEq, Except.ok.injEq] at h
  obtain ⟨rest, stop, after, hfiles, hwrites, -, -, -, hgood⟩ :=
    (Draft.commit_accountsFor (Prod.ext h.1 h.2)).written
  obtain ⟨-, rfl, -⟩ := hgood.mp hsuccess
  rw [List.append_nil] at hfiles
  exact ⟨after, hfiles ▸ hwrites⟩

/-- A request that is carried out again comes to the same, and changes no file. -/
theorem Compilation.ofRequest_again [LawfulFileSystem ω] [BareFileSystem ω] [GainingFileSystem ω]
    {reads : ω → Question → Set Path} (he : e.ReadsOnly reads)
    (htarget : r.target = .ok target) (hsource : ∀ p, target = .file p → p.endsAsSource = true)
    (hsteady : Steady w) (hsure : ∀ p, LooksAt e reads r w target p → Sure w p)
    (hworks : WritesWork e r w target) {c : Compilation} {w₁ : ω}
    (h : ofRequest e r w = (.ok c, w₁)) :
    ∃ w₂, ofRequest e r w₁ = (.ok c, w₂) ∧ SameFiles w₁ w₂ := by
  obtain ⟨target', f, left, htarget', hfinds, hcommit⟩ := exists_of_ofRequest h
  cases htarget.symm.trans htarget'
  obtain ⟨after, hwrites⟩ := hworks f left hfinds
  have houtputs := hfinds.isInput_eq_false he
  rw [Draft.commit_of_writes hwrites, Prod.mk.injEq] at hcommit
  obtain ⟨rfl, rfl⟩ := hcommit
  -- as far as files go, the engine has not been there
  obtain ⟨clean, hclean, hbare⟩ := hwrites.of_bare (hfinds.bare_eq he).symm
  obtain ⟨-, hgains, -⟩ := hclean.gains hsteady houtputs
  have hcwd : (FileSystem.host after).cwd = (FileSystem.host w).cwd :=
    (cwd_of_bare hbare.symm).trans (cwd_gains hgains)
  have hsame : ∀ p, LooksAt e reads r w target p → SameRead w after p := fun p hp =>
    (sameRead hsteady hgains (hp.isInput he fun q hq => Path.isInput_of_endsAsSource (hsource q hq))
      (hsure p hp)).trans (.of_bare hbare.symm p)
  obtain ⟨left₁, hfinds₁⟩ := hfinds.again he hcwd hsame
  obtain ⟨clean₂, hwrites₂, hfiles⟩ := hclean.again hsteady houtputs
  obtain ⟨w₂, hagain, hbare₂⟩ := hwrites₂.of_bare ((hfinds₁.bare_eq he).trans hbare.symm)
  refine ⟨w₂, ?_, ?_⟩
  · unfold ofRequest
    simp only [htarget, ofTarget, hfinds₁.prepare]
    rw [Draft.commit_of_writes (d := f.draft e.tag target.path) hagain]
  · exact (SameFiles.of_bare hbare).trans (hfiles.trans (.of_bare hbare₂))

/-! ## An engine -/

namespace Engine.Strict

/-- What the engine puts before a source. -/
def directive : String := "\"use strict\";\n"

/-- The script of a source that can be read. -/
def script? (w : ω) (p : Path) : Option OutputFile :=
  if p.isInput && p.scriptPath.isOutput && FileSystem.isFile w p then
    (FileSystem.readText w p).toOption.map fun source => ⟨p.scriptPath, directive ++ source⟩
  else none

/-- The files that the engine reads. -/
def reads (_ : ω) : Question → Set Path
  | .config path => {p | p = path ∧ p.isInput = true}
  | .program rootFiles _ => {p | p ∈ rootFiles ∧ p.isInput = true}
  | .script .. => ∅

end Engine.Strict

/-- An engine that makes sources strict. The source of a project is `main.ts`. -/
def Engine.strict : Engine ω (List OutputFile) where
  readProject w p :=
    if p.isInput && FileSystem.isFile w p then
      { fileNames := [(p.parent?.getD ⟨""⟩).child "main.ts"] }
    else {}
  createProgram rootFiles _ := return rootFiles.filterMap (Strict.script? (← get))
  preEmit files := return ([], files)
  syntaxErrors _ := return []
  emit files := return ({ files }, files)
  uncheckedReason _ := none
  transpile source _ _ := return { code := some (Strict.directive ++ source) }
  syntaxTree := Script.tree

namespace Engine.Strict

theorem script?_congr {w w' : ω} {p : Path} (h : p.isInput = true → SameRead w w' p) :
    script? w' p = script? w p := by
  unfold script?
  cases hp : p.isInput with
  | false => rfl
  | true =>
      have hsame := h hp
      rw [hsame.isFile]
      cases hfile : FileSystem.isFile w p with
      | false => simp
      | true => rw [hsame.readText hfile]

theorem readsOnly [LawfulFileSystem ω] [BareFileSystem ω] :
    (strict : Engine ω (List OutputFile)).ReadsOnly reads where
  alike {w w' q} _ hsame := by
    cases q with
    | config path =>
        show strict.readProject w' path = strict.readProject w path
        cases hp : path.isInput with
        | false => simp [strict, hp]
        | true => simp [strict, hp, (hsame path ⟨rfl, hp⟩).isFile]
    | program rootFiles options =>
        have hscripts : rootFiles.filterMap (script? w') = rootFiles.filterMap (script? w) :=
          List.filterMap_congr fun p hp => script?_congr fun hin => hsame p ⟨hp, hin⟩
        show Except.ok _ = Except.ok _
        rw [hscripts]
    | script => rfl
  inputs {w q p} hp := by
    cases q with
    | config | program => exact hp.2
    | script => cases hp
  config dir := by
    have hname : (dir.child "tsconfig.json").fileName? = some "tsconfig.json" :=
      Path.fileName?_child ⟨by decide, by decide⟩ (by decide) dir
    exact Path.isInput_iff.mpr ⟨_, hname, by decide⟩
  outputs {w left rootFiles options found emission} hrun f hf := by
    cases hrun
    obtain ⟨p, -, hscript⟩ := List.mem_filterMap.mp hf
    unfold script? at hscript
    split at hscript
    · rename_i hopen
      obtain ⟨source, -, rfl⟩ := Option.map_eq_some_iff.mp hscript
      simp only [Bool.and_eq_true] at hopen
      exact hopen.1.2
    · cases hscript
  produce _ _ _ := rfl
  transpile _ _ _ _ := rfl

end Engine.Strict

/-! ## Compiling again -/

/-- What is compiled again comes to the same and changes no file, whatever else is in memory. On a disk
that is so as long as no link has the name of an output and none of the paths that are looked at is led
elsewhere: to a file with the name of an output, through a link that leads nowhere, or up out of what is
not there. Without links only the last can be. -/
theorem compiling_again_changes_nothing :
    (∀ {π : Type} (e : Engine Rehearsal π) (reads : Rehearsal → Question → Set Path)
      (r : CompileRequest) (target : CompileTarget) (w w₁ : Rehearsal) (c : Compilation),
      e.ReadsOnly reads → r.target = .ok target → (∀ p, target = .file p → p.endsAsSource = true) →
      WritesWork e r w target → Compilation.ofRequest e r w = (.ok c, w₁) →
      ∃ w₂, Compilation.ofRequest e r w₁ = (.ok c, w₂) ∧ SameFiles w₁ w₂) ∧
    (∀ {π : Type} (e : Engine Workstation π) (reads : Workstation → Question → Set Path)
      (r : CompileRequest) (target : CompileTarget) (w w₁ : Workstation) (c : Compilation),
      e.ReadsOnly reads → r.target = .ok target → (∀ p, target = .file p → p.endsAsSource = true) →
      w.host.Steady → (∀ p, LooksAt e reads r w target p → w.host.Sure p) →
      WritesWork e r w target → Compilation.ofRequest e r w = (.ok c, w₁) →
      ∃ w₂, Compilation.ofRequest e r w₁ = (.ok c, w₂) ∧ SameFiles w₁ w₂) ∧
    ∀ (h : Host) (p : Path), h.disk.Linkless → p.isInput = true →
      ".." ∉ Path.steps p.components → h.Sure p := by
  refine ⟨fun e reads r target w w₁ c he htarget hsource hworks h => ?_,
    fun e reads r target w w₁ c he htarget hsource hsteady hsure hworks h => ?_,
    fun h p hd hp hup => Host.sure_of_linkless hd hp hup⟩
  · exact Compilation.ofRequest_again he htarget hsource trivial (fun _ _ => trivial) hworks h
  · exact Compilation.ofRequest_again he htarget hsource hsteady hsure hworks h

/-- A project in memory and a file on a disk. -/
theorem compiling_again_changes_nothing_of_main :
    let text := "\"use strict\";\nx"
    let w : Rehearsal :=
      { memory := { files := [(⟨"/v/main.ts"⟩, "x"), (⟨"/v/tsconfig.json"⟩, "")] } }
    let v : Workstation :=
      { host := { disk := ⟨[(["v"], .dir), (["v", "main.ts"], .file (.text "x") none),
          (["v", "tsconfig.json"], .file (.text "") none)]⟩ } }
    let again {ω : Type} [FileSystem ω] [LawfulFileSystem ω] (w : ω) (r : CompileRequest) : Prop :=
      ∃ c w₁ w₂, Compilation.ofRequest Engine.strict r w = (.ok c, w₁) ∧
        c.outputFiles = [⟨⟨"/v/main.js"⟩, text⟩] ∧
        Compilation.ofRequest Engine.strict r w₁ = (.ok c, w₂) ∧ SameFiles w₁ w₂
    again w (.ofProject ⟨"/v"⟩) ∧ again v (.ofFile ⟨"/v/main.ts"⟩) := by
  intro text w v again
  obtain ⟨hmemory, hdisk, hlinkless⟩ := compiling_again_changes_nothing
  constructor
  · obtain ⟨w₁, h⟩ : ∃ w₁, Compilation.ofRequest Engine.strict (.ofProject ⟨"/v"⟩) w =
        (.ok ⟨true, [], [⟨⟨"/v/main.js"⟩, text⟩]⟩, w₁) :=
      ⟨_, Prod.ext (toOption_eq_some.mp (by decide +kernel)) rfl⟩
    obtain ⟨w₂, hagain, hsame⟩ := hmemory Engine.strict Engine.Strict.reads (.ofProject ⟨"/v"⟩)
      (.project ⟨"/v"⟩) w _ _ Engine.Strict.readsOnly rfl nofun (.of_success rfl h rfl) h
    exact ⟨_, _, w₂, h, rfl, hagain, hsame⟩
  · obtain ⟨v₁, h⟩ : ∃ v₁, Compilation.ofRequest Engine.strict (.ofFile ⟨"/v/main.ts"⟩) v =
        (.ok ⟨true, [], [⟨⟨"/v/main.js"⟩, text⟩]⟩, v₁) :=
      ⟨_, Prod.ext (toOption_eq_some.mp (by decide +kernel)) rfl⟩
    have hnolinks : v.host.disk.Linkless := Disk.linkless_of_all (by simp [v])
    have hsteady : v.host.Steady :=
      ⟨Disk.lookup?_nil _, Disk.closed_of_all (by decide), hnolinks.unlinked⟩
    have hsource : ∀ p, CompileTarget.file ⟨"/v/main.ts"⟩ = .file p → p.endsAsSource = true := by
      intro p hp
      cases hp
      decide +kernel
    have hsure : ∀ p, LooksAt Engine.strict Engine.Strict.reads (.ofFile ⟨"/v/main.ts"⟩) v
        (.file ⟨"/v/main.ts"⟩) p → v.host.Sure p := by
      intro p hp
      refine hlinkless v.host p hnolinks
        (hp.isInput Engine.Strict.readsOnly fun q hq => Path.isInput_of_endsAsSource (hsource q hq)) ?_
      cases hp with
      | source => decide +kernel
      | @candidate _ dir hdir =>
          have hall : ∀ dir ∈ ((⟨"/v/main.ts"⟩ : Path).parent?.getD ⟨"/v/main.ts"⟩).ancestors,
              ".." ∉ Path.steps (dir.child "tsconfig.json").components := by decide +kernel
          exact hall dir hdir
      | read hasks hp =>
          cases hasks with
          | nearest hconfig =>
              have hnearest : Engine.strict.findConfig v ⟨"/v/main.ts"⟩ =
                some ⟨"/v/tsconfig.json"⟩ := by decide +kernel
              cases hnearest.symm.trans hconfig
              rw [hp.1]
              decide +kernel
          | script => cases hp
    obtain ⟨w₂, hagain, hsame⟩ := hdisk Engine.strict Engine.Strict.reads (.ofFile ⟨"/v/main.ts"⟩)
      (.file ⟨"/v/main.ts"⟩) v _ _ Engine.Strict.readsOnly rfl hsource hsteady hsure
      (.of_success rfl h rfl) h
    exact ⟨_, _, w₂, h, rfl, hagain, hsame⟩

/-- A source that is a link to its script is another one when it has been compiled. Whether it was compiled
and what was written changes too where a configuration is a link to nothing, where a path of one goes up
out of the output directory, and where a link on the way to the source has the name of its script. -/
theorem outputs_behind_links_are_read_again :
    let source : Location × Node := (["v", "a.ts"], .file (.text "const a: number = 1;\n") none)
    let v : Workstation :=
      { host := { disk := ⟨[(["v"], .dir), (["v", "a.js"], .file (.text "x") none),
          (["v", "a.ts"], .link ⟨"a.js"⟩)]⟩ } }
    let r : CompileRequest := .ofFile ⟨"/v/a.ts"⟩
    let twice := fun (entries : List (Location × Node)) (r : CompileRequest) =>
      let first := Compilation.ofRequest (Engine.onHost none) r { host := { disk := ⟨entries⟩ } }
      let second := Compilation.ofRequest (Engine.onHost none) r first.2
      [first, second].map fun result =>
        result.1.toOption.map fun c => c.outputFiles.map (·.path.text)
    ((Engine.strict : Engine Workstation _).ReadsOnly Engine.Strict.reads ∧
      (⟨"/v/a.ts"⟩ : Path).endsAsSource = true ∧
      WritesWork Engine.strict r v (.file ⟨"/v/a.ts"⟩) ∧
      ∃ c v₁ c' v₂, Compilation.ofRequest Engine.strict r v = (.ok c, v₁) ∧
        Compilation.ofRequest Engine.strict r v₁ = (.ok c', v₂) ∧ c'.outputFiles ≠ c.outputFiles) ∧
    twice [(["v"], .dir), source, (["v", "tsconfig.json"], .link ⟨"a.js"⟩)] r =
      [some ["/v/a.js"], some []] ∧
    twice [(["v"], .dir), source,
        (["v", "tsconfig.json"], .file (.text ("\x7b\"files\": [\"a.ts\"], " ++
          "\"extends\": \"x/../base.json\", " ++
          "\"compilerOptions\": \x7b\"outDir\": \"node_modules/x\"\x7d\x7d")) none),
        (["v", "node_modules"], .dir), (["v", "node_modules", "base.json"], .file (.text
          "\x7b\"compilerOptions\": \x7b\"noEmit\": true\x7d\x7d") none),
        (["node_modules"], .dir), (["node_modules", "x"], .dir),
        (["node_modules", "base.json"], .file (.text "\x7b\x7d") none)] (.ofProject ⟨"/v"⟩) =
      [some ["/v/node_modules/x/a.js"], some []] ∧
    twice [(["v"], .dir), source, (["a.js"], .link ⟨"v"⟩)]
        { filePath := some ⟨"/a.js/a.ts"⟩, outputDir := some ⟨"/"⟩ } =
      [some ["/a.js"], none] := by
  intro source v r twice
  refine ⟨?_, by decide +kernel, by decide +kernel, by decide +kernel⟩
  obtain ⟨v₁, hfirst⟩ : ∃ v₁, Compilation.ofRequest Engine.strict r v =
      (.ok ⟨true, [], [⟨⟨"/v/a.js"⟩, "\"use strict\";\nx"⟩]⟩, v₁) :=
    ⟨_, Prod.ext (toOption_eq_some.mp (by decide +kernel)) rfl⟩
  have hsecond : (Compilation.ofRequest Engine.strict r v₁).1 =
      .ok ⟨true, [], [⟨⟨"/v/a.js"⟩, "\"use strict\";\n\"use strict\";\nx"⟩]⟩ := by
    obtain rfl : (Compilation.ofRequest Engine.strict r v).2 = v₁ := congrArg Prod.snd hfirst
    exact toOption_eq_some.mp (by decide +kernel)
  exact ⟨Engine.Strict.readsOnly, by decide +kernel, .of_success rfl hfirst rfl, _, v₁, _, _, hfirst,
    Prod.ext hsecond rfl, by decide +kernel⟩

end ScriptWorks

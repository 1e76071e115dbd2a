import ScriptWorks.Small.Compiler
import ScriptWorks.Proofs.Compilation.Respelling
import ScriptWorks.Proofs.Failing
import ScriptWorks.Proofs.Schedule.Solitary
import ScriptWorks.Proofs.Watch.Registry

/-!
# What a session recompiles

A session keeps the request that it was opened for, with the key of the file in place of its path. On a
change it does what a compilation of that request does. That is the file itself, but a file under
another name may have another configuration, and its script goes elsewhere.
-/

namespace ScriptWorks

section

variable {ω ν : Type} [FileSystem ω]

/-- A request that is accepted has a session, which keeps all of it but the path. -/
theorem Sessions.exists_of_watch_eq_ok {watcher : Watcher ω ν} {inRuntime : Bool} {w : ω}
    {r : CompileRequest} {s s' : Sessions ν} {ack : WatchAck}
    (h : s.watch watcher inRuntime w r = (.ok ack, s')) :
    ∃ p n, r.filePath = some p ∧ FileSystem.isFile w p = true ∧
      ack.key = (FileSystem.host w).key p ∧
      ⟨ack.key, { r with filePath := some ack.key, watch := false }, n⟩ ∈ s'.active := by
  unfold Sessions.watch at h
  cases hp : r.filePath with
  | none => simp [hp] at h
  | some p =>
      simp only [hp] at h
      cases hfile : FileSystem.isFile w p with
      | false => simp [hfile] at h
      | true =>
          cases inRuntime with
          | false => simp [hfile] at h
          | true =>
              simp only [hfile, Bool.not_true, Bool.false_eq_true, if_false, Sessions.start] at h
              split at h
              case h_1 => cases h
              case h_2 n state hsubscribe =>
                cases h
                exact ⟨p, n, rfl, hfile, rfl, List.mem_append_right _ (List.mem_singleton.mpr rfl)⟩

end

namespace Schedule

variable {ω π ν : Type} [FileSystem ω]

/-- Nobody does anything for a call that was not made. -/
theorem run_courseOf_length (e : Engine ω π) (watcher : Watcher ω ν) {s : Schedule ω ν}
    (hs : s.gate.IsIdle) : s.run e watcher (courseOf s.calls.length) = s := by
  have hnone (f : Nat → Call → Schedule ω ν → Schedule ω ν) : s.withCall s.calls.length f = s := by
    simp [withCall]
  have hgrant : s.gate.grant s.calls.length = s.gate := by
    simp [Gate.grant, Gate.ticket?, hs.2]
  have hforget : s.gate.forget s.calls.length = s.gate := by
    simp [Gate.forget, Gate.ticket?, hs.2]
  simp only [run, courseOf, List.foldl_cons, List.foldl_nil, step, hgrant, hforget, hnone]

end Schedule

namespace Toolchain

variable {ω π ν : Type} [FileSystem ω]

/-- While nobody is at the gate, the session reports what its request comes to. -/
theorem notify_of_isIdle (t : Toolchain ω π ν) {o : WatchSession} {s : Schedule ω ν}
    (hs : s.gate.IsIdle)
    (ho : s.sessions.active.find? (·.subscription = o.subscription) = some o) :
    let result := Compilation.ofRequest t.engine o.request s.world
    ∃ s', t.notify o.subscription s = (some ⟨o.key, result.1⟩, s') ∧ s'.world = result.2 ∧
      s'.gate.IsIdle := by
  intro result
  unfold notify
  cases htarget : o.request.target with
  | ok target =>
      have hresult : result = Compilation.ofTarget t.engine o.request target s.world := by
        simp only [result, Compilation.ofRequest, htarget]
      rw [Schedule.changed_of_isIdle t.engine t.watcher hs ho htarget, ← hresult]
      exact ⟨_, Prod.ext (by simp) rfl, rfl, rfl, rfl⟩
  | error fault =>
      have hresult : result = (.error (.invalidRequest fault), s.world) := by
        simp only [result, Compilation.ofRequest, htarget]
      -- nothing is asked of the gate
      have hchanged : s.changed t.engine t.watcher o.subscription =
          { s with reports := s.reports ++ [⟨o.key, .error (.invalidRequest fault)⟩] } := by
        unfold Schedule.changed
        rw [Schedule.run, List.foldl_cons]
        simp only [Schedule.step, Schedule.deliver, ho, htarget]
        exact Schedule.run_courseOf_length t.engine t.watcher
          (s := { s with reports := s.reports ++ [⟨o.key, .error (.invalidRequest fault)⟩] }) hs
      rw [hchanged, hresult]
      exact ⟨_, Prod.ext (by simp) rfl, rfl, hs⟩

end Toolchain

/-- Whatever the session of a watched file is told in whatever state of the world, it reports, and
leaves behind, what compiling the file by its key comes to there, with all else that the request asks
for. So a file that was requested by its key is recompiled as it is compiled, and on a disk a file that is
requested by any path that is no link, as long as its key has the settings of the path and the compiler
does not look at directories: with the same success, the same codes and places of problems, and the same
texts written to the same places. -/
theorem sessions_compile_by_key {ω π ν : Type} [FileSystem ω] (t : Toolchain ω π ν)
    (inRuntime : Bool) (r : CompileRequest) (s s₁ : Schedule ω ν) (ack : WatchAck)
    (h : t.watch inRuntime r s = (.ok ack, s₁)) :
    ∃ p o, r.filePath = some p ∧ ack.key = (FileSystem.host s.world).key p ∧
      o ∈ s₁.sessions.active ∧ o.key = ack.key ∧
      ∀ s₂ : Schedule ω ν, s₂.gate.IsIdle →
        s₂.sessions.active.find? (·.subscription = o.subscription) = some o →
        let host := FileSystem.host s₂.world
        let direct := fun r : CompileRequest =>
          Compilation.ofRequest t.engine { r with watch := false } s₂.world
        let recompiled := direct { r with filePath := some ack.key }
        (∃ s₃, t.notify o.subscription s₂ = (some ⟨ack.key, recompiled.1⟩, s₃) ∧
          s₃.world = recompiled.2 ∧ s₃.gate.IsIdle) ∧
        (ack.key = p → recompiled = direct r) ∧
        ∀ compiler, t.engine.Respells compiler s₂.world (r.overrides host) p ack.key →
          Compilation.SameOutcome host recompiled.1 (direct r).1 ∧ recompiled.2 = (direct r).2 := by
  have hack : (t.watch inRuntime r s).1 = .ok ack := by rw [h]
  have hsessions : (t.watch inRuntime r s).2.sessions = s₁.sessions := by rw [h]
  obtain ⟨p, n, hp, -, hkey, hmem⟩ := Sessions.exists_of_watch_eq_ok (Prod.ext hack hsessions)
  refine ⟨p, _, hp, hkey, hmem, rfl,
    fun s₂ hs₂ ho => ⟨?_, fun hsame => ?_, fun compiler hrespells => ?_⟩⟩
  · exact t.notify_of_isIdle hs₂ ho
  · have hr : { r with filePath := some ack.key } = r := by rw [hsame, ← hp]
    rw [hr]
  · exact Compilation.ofRequest_of_respells hp hrespells

theorem Compiler.small_ignoresDirectories : Compiler.small.IgnoresDirectories where
  read _ _ _ _ _ _ := rfl
  print _ _ _ _ _ _ := rfl

/-- A file that is watched by a path through a link to its directory, and has changed since. -/
theorem sessions_compile_by_key_of_changed :
    let t : Toolchain Workstation CheckedProgram DirectoryWatch := ⟨Engine.onHost none, .directories⟩
    let w := fun text : String => (
      { host :=
        { cwd := ["v"]
          disk := ⟨[(["v"], .dir), (["v", "lib"], .dir), (["v", "link"], .link ⟨"lib"⟩),
            (["v", "lib", "a.ts"], .file (.text text) none)]⟩ } } : Workstation)
    let r : CompileRequest := { filePath := some ⟨"link/a.ts"⟩, watch := true }
    let opened := t.watch true r { world := w "", sessions := { watcher := {} } }
    let changed := { opened.2 with world := w "const a: number = 1;\n" }
    let direct := Compilation.ofRequest t.engine (.ofFile ⟨"link/a.ts"⟩) changed.world
    opened.1.toOption = some ⟨⟨"/v/lib/a.ts"⟩, false⟩ ∧ changed.gate.IsIdle ∧
      (∃ outcome, (t.notify 0 changed).1 = some ⟨⟨"/v/lib/a.ts"⟩, outcome⟩ ∧
        Compilation.SameOutcome changed.world.host outcome direct.1) ∧
      (t.notify 0 changed).2.world = direct.2 ∧
      direct.2.host.disk.lookup? ["v", "lib", "a.js"] = some (.file (.text "const a = 1;\n") none) := by
  intro t w r opened changed direct
  have hack : opened.1.toOption = some ⟨⟨"/v/lib/a.ts"⟩, false⟩ := by decide +kernel
  obtain ⟨p, o, hp, -, ho, hkey, hnotify⟩ :=
    sessions_compile_by_key t true r _ opened.2 _ (eq_ok_of_toOption hack)
  have hactive : opened.2.sessions.active =
      [⟨⟨"/v/lib/a.ts"⟩, .ofFile ⟨"/v/lib/a.ts"⟩, 0⟩] := by decide +kernel
  obtain rfl := List.mem_singleton.mp (hactive ▸ ho)
  cases hp
  have hidle : changed.gate.IsIdle :=
    ⟨List.isEmpty_iff.mp (by decide +kernel), List.isEmpty_iff.mp (by decide +kernel)⟩
  obtain ⟨⟨s₃, hs₃, hworld, -⟩, -, hsame⟩ := hnotify changed hidle (by decide +kernel)
  have hsettings : t.engine.resolve changed.world ⟨"/v/lib/a.ts"⟩ {} =
      t.engine.resolve changed.world ⟨"link/a.ts"⟩ {} := Engine.resolve_eq (by decide +kernel) {}
  have hunplaced : (t.engine.resolve changed.world ⟨"link/a.ts"⟩ {}).options.text? .outDir = none := by
    decide +kernel
  have hrespells : t.engine.Respells .small changed.world {} ⟨"link/a.ts"⟩ ⟨"/v/lib/a.ts"⟩ :=
    { isOnDisk := Compiler.small.engine_isOnDisk none
      ignoresDirectories := Compiler.small_ignoresDirectories
      stands := Host.stands_iff.mpr (by decide +kernel)
      isFile := by decide +kernel
      itself := by decide +kernel
      key_eq := by decide +kernel
      taken := by decide +kernel
      settings := by
        rw [hsettings]
        exact Resolved.agrees_self fun dir hdir => absurd (hunplaced.symm.trans hdir) (by simp)
      unmapped := by decide +kernel }
  obtain ⟨houtcome, hafter⟩ := hsame .small hrespells
  refine ⟨hack, hidle, ⟨_, congrArg Prod.fst hs₃, houtcome⟩, ?_, by decide +kernel⟩
  rw [hs₃, hworld]
  exact hafter

/-- The script of a link goes beside the link, but after a change beside the file that it leads to. -/
theorem watched_link_is_recompiled_elsewhere :
    let t : Toolchain Workstation CheckedProgram DirectoryWatch := ⟨Engine.onHost none, .directories⟩
    let w : Workstation :=
      { host :=
        { disk := ⟨[(["v"], .dir), (["v", "lib"], .dir),
            (["v", "lib", "b.ts"], .file (.text "const b: number = 1;\n") none),
            (["v", "a.ts"], .link ⟨"lib/b.ts"⟩)]⟩ } }
    let r : CompileRequest := { filePath := some ⟨"/v/a.ts"⟩, watch := true }
    let opened := t.watch true r { world := w, sessions := { watcher := {} } }
    let paths := fun result : Except Failure Compilation =>
      result.toOption.map fun c => c.outputFiles.map (·.path.text)
    opened.1.toOption = some ⟨⟨"/v/lib/b.ts"⟩, false⟩ ∧
      (t.notify 0 opened.2).1.map (fun report => paths report.outcome) = some (some ["/v/lib/b.js"]) ∧
      paths (Compilation.ofRequest t.engine { r with watch := false } opened.2.world).1 =
        some ["/v/a.js"] := by
  decide +kernel

end ScriptWorks

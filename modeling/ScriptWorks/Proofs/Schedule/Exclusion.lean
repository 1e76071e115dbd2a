import ScriptWorks.Small.Compiler
import ScriptWorks.Proofs.Gate.Exclusion
import ScriptWorks.Schedule

/-!
# Bodies at work

A body is at work under the lock of its target for as long as somebody waits for its result. Who goes
away gives the lock back at once, while the body stays at work: then another body may start beside it.
-/

namespace ScriptWorks

namespace Gate

variable {τ : Type} [DecidableEq τ]

/-- The caller holds a lock. -/
def HeldBy (g : Gate τ) (id : τ) : Prop := ∃ t, g.ticket? id = some t ∧ t.phase = .held

theorem ticket?_setPhase (g : Gate τ) (id : τ) (phase : Phase) (other : τ) :
    (g.setPhase id phase).ticket? other =
      (g.ticket? other).map fun t => if t.id = id then { t with phase } else t := by
  unfold ticket? setPhase
  rw [List.find?_map]
  congr 2
  funext t
  simp only [Function.comp_apply]
  split <;> rfl

theorem ticket?_removeTicket {g : Gate τ} {id other : τ} (hne : other ≠ id) :
    (g.removeTicket id).ticket? other = g.ticket? other := by
  unfold ticket? removeTicket
  rw [List.find?_filter]
  congr 1
  funext t
  by_cases ht : t.id = other
  · simp [ht, hne]
  · simp [ht]

variable {g : Gate τ} {id other : τ}

theorem HeldBy.join (h : g.HeldBy other) (key : Path) : (g.step (.join id key)).HeldBy other := by
  obtain ⟨t, ht, hp⟩ := h
  have happend (table : List (Path × Nat)) (u : Ticket τ) (next : Nat) :
      Gate.ticket? ⟨table, g.tickets ++ [u], next⟩ other = some t := by
    unfold ticket? at ht ⊢
    rw [List.find?_append, ht]
    rfl
  refine ⟨t, ?_, hp⟩
  simp only [step, Gate.join]
  split
  · exact ht
  · split <;> exact happend _ _ _

theorem HeldBy.grant (h : g.HeldBy other) : (g.grant id).HeldBy other := by
  obtain ⟨t, ht, hp⟩ := h
  unfold Gate.grant
  split
  · rw [HeldBy, ticket?_setPhase, ht, Option.map_some]
    by_cases hid : t.id = id
    · exact ⟨_, rfl, by rw [if_pos hid]⟩
    · exact ⟨_, rfl, by rw [if_neg hid, hp]⟩
  · exact ⟨t, ht, hp⟩

theorem HeldBy.release (h : g.HeldBy other) (hne : other ≠ id) : (g.release id).HeldBy other := by
  obtain ⟨t, ht, hp⟩ := h
  unfold Gate.release
  split
  · refine ⟨t, ?_, hp⟩
    have hid : t.id ≠ id := by rwa [(ticket?_eq_some ht).2]
    rw [ticket?_setPhase, ht, Option.map_some, if_neg hid]
  · exact ⟨t, ht, hp⟩

/-- Who waits may go away: that is not who holds the lock. -/
theorem HeldBy.cancel (h : g.HeldBy other) : (g.cancel id).HeldBy other := by
  obtain ⟨t, ht, hp⟩ := h
  unfold Gate.cancel
  split
  case isTrue hwaits =>
    have hne : other ≠ id := by
      rintro rfl
      rw [ht] at hwaits
      simp [hp] at hwaits
    exact ⟨t, by rw [ticket?_removeTicket hne, ht], hp⟩
  case isFalse => exact ⟨t, ht, hp⟩

theorem HeldBy.forget (h : g.HeldBy other) : (g.forget id).HeldBy other := by
  obtain ⟨t, ht, hp⟩ := h
  unfold Gate.forget
  split
  case h_1 u hu =>
    split
    case isTrue hleaves =>
      have hne : other ≠ id := by
        rintro rfl
        rw [ht] at hu
        cases hu
        rw [hp] at hleaves
        cases hleaves
      exact ⟨t, (ticket?_removeTicket hne).trans ht, hp⟩
    case isFalse => exact ⟨t, ht, hp⟩
  case h_2 => exact ⟨t, ht, hp⟩

end Gate

namespace Schedule

variable {ω π ν : Type}

/-- What every step keeps: a body at work for somebody has the lock of its target. -/
structure Guarded (s : Schedule ω ν) : Prop where
  orderly : s.gate.Orderly
  held : ∀ n c, s.calls[n]? = some c → c.isRunning = true → c.isAbandoned = false →
    s.gate.HeldBy n

theorem heldBy_of_holds {s : Schedule ω ν} {n : Nat} (h : s.holds n = true) : s.gate.HeldBy n := by
  unfold holds at h
  cases ht : s.gate.ticket? n with
  | none =>
      rw [ht] at h
      cases h
  | some t =>
      rw [ht] at h
      exact ⟨t, ht, of_decide_eq_true h⟩

namespace Guarded

variable {s : Schedule ω ν}

theorem congr (h : s.Guarded) {s' : Schedule ω ν} (hgate : s'.gate = s.gate)
    (hcalls : s'.calls = s.calls) : s'.Guarded where
  orderly := by
    rw [hgate]
    exact h.orderly
  held := by
    rw [hgate, hcalls]
    exact h.held

/-- Another gate, at which all who hold a lock for a body at work still do. -/
theorem withGate (h : s.Guarded) {g : Gate Nat} (hg : g.Orderly)
    (hheld : ∀ n c, s.calls[n]? = some c → c.isRunning = true → c.isAbandoned = false →
      s.gate.HeldBy n → g.HeldBy n) : { s with gate := g }.Guarded where
  orderly := hg
  held n c hc hrun hstay := hheld n c hc hrun hstay (h.held n c hc hrun hstay)

theorem setCall (h : s.Guarded) {n : Nat} {c : Call}
    (hc : c.isRunning = true → c.isAbandoned = false → s.gate.HeldBy n) :
    (s.setCall n c).Guarded where
  orderly := h.orderly
  held := by
    intro m d hd hrun hstay
    have hd' : (s.calls.set n c)[m]? = some d := hd
    rw [List.getElem?_set] at hd'
    split at hd'
    · rename_i hnm
      split at hd'
      · cases hd'
        exact hnm ▸ hc hrun hstay
      · cases hd'
    · exact h.held m d hd' hrun hstay

/-! ## Steps -/

theorem start (h : s.Guarded) (n : Nat) (c : Call) : (s.start n c).Guarded := by
  unfold Schedule.start
  split
  case isTrue hready =>
    refine h.setCall fun _ _ => heldBy_of_holds ?_
    exact (Bool.and_eq_true_iff.mp hready).2
  case isFalse => exact h

/-- A lock is given back for a body that is done, or for nobody. -/
theorem release (h : s.Guarded) {n : Nat} {c : Call} (hc : s.calls[n]? = some c) :
    (s.release n c).Guarded := by
  unfold Schedule.release
  split
  case isTrue hdone =>
    refine h.withGate (h.orderly.release n) fun m d hd hrun hstay hheld => hheld.release ?_
    rintro rfl
    rw [hc] at hd
    cases hd
    rw [hstay, Bool.or_false] at hdone
    unfold Call.isRunning at hrun
    unfold Call.result? at hdone
    cases hstage : c.stage <;> simp [hstage] at hrun hdone
  case isFalse => exact h

theorem report (h : s.Guarded) {n : Nat} {c : Call} (hc : s.calls[n]? = some c) :
    (s.report n c).Guarded := by
  unfold Schedule.report
  split
  · split
    · exact h
    · have hset : (s.setCall n { c with isReported := true }).Guarded :=
        h.setCall fun hrun hstay => h.held n c hc hrun hstay
      exact hset.congr rfl rfl
  · exact h

theorem abandon (h : s.Guarded) (n : Nat) (c : Call) : (s.abandon n c).Guarded := by
  unfold Schedule.abandon
  split
  · exact h
  · have hcall : (s.setCall n { c with isAbandoned := true }).Guarded :=
      h.setCall fun _ hstay => by cases hstay
    refine hcall.withGate ((h.orderly.cancel n).release n) ?_
    intro m d hd hrun hstay hheld
    refine hheld.cancel.release ?_
    rintro rfl
    have hd' : (s.calls.set m { c with isAbandoned := true })[m]? = some d := hd
    rw [List.getElem?_set, if_pos rfl] at hd'
    split at hd'
    · cases hd'
      cases hstay
    · cases hd'

theorem withCall (h : s.Guarded) (n : Nat) {f : Nat → Call → Schedule ω ν → Schedule ω ν}
    (hf : ∀ c, s.calls[n]? = some c → (f n c s).Guarded) : (s.withCall n f).Guarded := by
  unfold Schedule.withCall
  cases hc : s.calls[n]? with
  | none => exact h
  | some c => exact hf c hc

variable [FileSystem ω]

theorem enqueue (h : s.Guarded) (request : CompileRequest) (target : CompileTarget)
    (session : Option Path) : (s.enqueue request target session).Guarded := by
  unfold Schedule.enqueue
  refine ⟨h.orderly.step (.join _ _), ?_⟩
  intro n c hc hrun hstay
  rw [List.getElem?_append] at hc
  split at hc
  · exact (h.held n c hc hrun hstay).join _
  · -- The new call waits.
    rw [List.mem_singleton.mp (List.mem_of_getElem? hc)] at hrun
    exact absurd hrun Bool.false_ne_true

theorem prepare (h : s.Guarded) (e : Engine ω π) {n : Nat} {c : Call} (hc : s.calls[n]? = some c) :
    (s.prepare e n c).Guarded := by
  unfold Schedule.prepare
  split
  case h_1 hstage =>
    have hrun : c.isRunning = true := by
      unfold Call.isRunning
      rw [hstage]
    have hset (draft : Except Failure Draft) :
        (s.setCall n { c with stage := .prepared draft }).Guarded :=
      h.setCall fun _ hstay => h.held n c hc hrun hstay
    exact (hset _).congr rfl rfl
  case h_2 => exact h

theorem commit (h : s.Guarded) (n : Nat) (c : Call) : (s.commit n c).Guarded := by
  unfold Schedule.commit
  split
  · exact h.setCall fun hrun => by cases hrun
  · exact (h.setCall fun hrun => by cases hrun).congr rfl rfl
  · exact h

theorem deliver (h : s.Guarded) (subscription : Nat) : (s.deliver subscription).Guarded := by
  unfold Schedule.deliver
  split
  · exact h
  · split
    · exact h.enqueue _ _ _
    · exact h.congr rfl rfl

theorem step (h : s.Guarded) (e : Engine ω π) (watcher : Watcher ω ν) (st : Step ω) :
    (s.step e watcher st).Guarded := by
  cases st with
  | ask request target => exact h.enqueue request target none
  | grant n => exact h.withGate (h.orderly.grant n) fun _ _ _ _ _ hheld => hheld.grant
  | start n => exact h.withCall n fun c _ => h.start n c
  | prepare n => exact h.withCall n fun c hc => h.prepare e hc
  | commit n => exact h.withCall n fun c _ => h.commit n c
  | release n => exact h.withCall n fun c hc => h.release hc
  | forget n => exact h.withGate (h.orderly.forget n) fun _ _ _ _ _ hheld => hheld.forget
  | report n => exact h.withCall n fun c hc => h.report hc
  | abandon n => exact h.withCall n fun c _ => h.abandon n c
  | watch request => exact h.congr rfl rfl
  | stop p => exact h.congr rfl rfl
  | stopAll => exact h.congr rfl rfl
  | deliver subscription => exact h.deliver subscription
  | change f => exact h.congr rfl rfl

theorem run (h : s.Guarded) (e : Engine ω π) (watcher : Watcher ω ν) (steps : List (Step ω)) :
    (s.run e watcher steps).Guarded := by
  induction steps generalizing s with
  | nil => exact h
  | cons st steps ih => exact ih (h.step e watcher st)

end Guarded

variable [FileSystem ω]

/-- However calls, sessions and changes follow one another, two bodies that are at work for somebody
hold the locks of their targets, and these are targets with different keys. -/
theorem awaited_bodies_have_different_keys (e : Engine ω π) (watcher : Watcher ω ν) (world : ω)
    (sessions : Sessions ν) (steps : List (Step ω)) :
    let s := Schedule.run e watcher { world, sessions } steps
    ∀ n m c d, s.calls[n]? = some c → s.calls[m]? = some d →
      c.isRunning = true → c.isAbandoned = false → d.isRunning = true → d.isAbandoned = false →
      ∃ t u, s.gate.ticket? n = some t ∧ s.gate.ticket? m = some u ∧
        t.phase = .held ∧ u.phase = .held ∧ (t.key.same u.key = true → n = m) := by
  intro s n m c d hc hd hcrun hcstay hdrun hdstay
  have h : s.Guarded :=
    Guarded.run ⟨Gate.Orderly.empty, fun n c hc => by simp at hc⟩ e watcher steps
  obtain ⟨t, ht, htp⟩ := h.held n c hc hcrun hcstay
  obtain ⟨u, hu, hup⟩ := h.held m d hd hdrun hdstay
  refine ⟨t, u, ht, hu, htp, hup, ?_⟩
  intro hsame
  obtain ⟨htmem, rfl⟩ := Gate.ticket?_eq_some ht
  obtain ⟨humem, rfl⟩ := Gate.ticket?_eq_some hu
  have htl := h.orderly.shared t htmem (by simp [htp])
  have hul := h.orderly.shared u humem (by simp [hup])
  rw [Gate.lockOf?_of_same hsame, hul] at htl
  rw [h.orderly.exclusive t htmem u humem htp hup (Option.some.inj htl).symm]

/-- Bodies for two files are at work at the same time. -/
theorem awaited_bodies_have_different_keys_of_two :
    let r := CompileRequest.ofFile ⟨"/v/a.ts"⟩
    let q := CompileRequest.ofFile ⟨"/v/b.ts"⟩
    let s := Schedule.run (Engine.onHost none) .directories
      { world := {}, sessions := { watcher := {} } }
      [.ask r (.file ⟨"/v/a.ts"⟩), .ask q (.file ⟨"/v/b.ts"⟩), .grant 1, .grant 0, .start 0, .start 1]
    ∃ t u, s.gate.ticket? 0 = some t ∧ s.gate.ticket? 1 = some u ∧
      t.phase = .held ∧ u.phase = .held ∧ t.key.same u.key = false := by
  intro r q s
  have hfirst : s.calls[0]?.map (fun c => (c.isRunning, c.isAbandoned)) = some (true, false) := by
    decide +kernel
  have hsecond : s.calls[1]?.map (fun c => (c.isRunning, c.isAbandoned)) = some (true, false) := by
    decide +kernel
  obtain ⟨c, hc, hcstate⟩ := Option.map_eq_some_iff.mp hfirst
  obtain ⟨d, hd, hdstate⟩ := Option.map_eq_some_iff.mp hsecond
  obtain ⟨t, u, ht, hu, htp, hup, hkeys⟩ := awaited_bodies_have_different_keys _ _ _ _ _ 0 1 c d hc hd
    (congrArg Prod.fst hcstate) (congrArg Prod.snd hcstate)
    (congrArg Prod.fst hdstate) (congrArg Prod.snd hdstate)
  refine ⟨t, u, ht, hu, htp, hup, ?_⟩
  rw [← Bool.not_eq_true]
  intro hsame
  exact absurd (hkeys hsame) (by decide)

/-- The asker of a body at work goes away, and another body for the same target starts beside it. -/
theorem abandoned_body_works_beside_another :
    let p : Path := ⟨"/v/a.ts"⟩
    let r := CompileRequest.ofFile p
    let s := Schedule.run (Engine.onHost none) .directories
      { world := {}, sessions := { watcher := {} } }
      [.ask r (.file p), .ask r (.file p), .grant 0, .start 0, .abandon 0, .grant 1, .start 1]
    s.calls.map (fun c => (c.target, c.isRunning)) = [(.file p, true), (.file p, true)] := by
  decide +kernel

end Schedule

end ScriptWorks

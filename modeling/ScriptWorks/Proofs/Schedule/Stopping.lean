import ScriptWorks.Small.Compiler
import ScriptWorks.Proofs.Watch.Registry
import ScriptWorks.Schedule

/-!
# Reports after a stop

A session that is stopped asks for nothing any more. What it has asked for before goes on, though, and is
reported when it is done, so that a stopped key is silent only if no call of it was under way.
-/

namespace ScriptWorks

namespace Call

/-- A session of the key asks for the call. -/
def isOf (key : Path) (c : Call) : Bool := c.session.any (·.same key)

/-- The call at a later time. -/
structure Becomes (c c' : Call) : Prop where
  session : c'.session = c.session
  isReported : c.isReported = true → c'.isReported = true
  result : ∀ result, c.result? = some result → c'.result? = some result

theorem Becomes.refl (c : Call) : c.Becomes c := ⟨rfl, id, fun _ h => h⟩

theorem becomes_withStage {c : Call} (hc : c.result? = none) (stage : Stage) :
    c.Becomes { c with stage } :=
  ⟨rfl, id, fun result h => by rw [hc] at h; cases h⟩

theorem becomes_reported (c : Call) : c.Becomes { c with isReported := true } :=
  ⟨rfl, fun _ => rfl, fun _ h => h⟩

theorem Becomes.isOf {c c' : Call} (h : c.Becomes c') (key : Path) : c'.isOf key = c.isOf key := by
  unfold Call.isOf
  rw [h.session]

end Call

namespace Sessions

variable {ω ν : Type} {watcher : Watcher ω ν} {s : Sessions ν} {o : WatchSession}

theorem mem_of_mem_close {key : Path} (h : o ∈ (s.close watcher key).2.active) :
    o ∈ s.active ∧ o.key.same key = false := by
  unfold close at h
  cases hfind : s.find? key with
  | none =>
      simp only [hfind] at h
      exact ⟨h, by simpa using List.find?_eq_none.mp hfind o h⟩
  | some old =>
      simp only [hfind] at h
      simpa using List.mem_filter.mp h

theorem of_mem_start {w : ω} {key : Path} {r : CompileRequest}
    (h : o ∈ (s.start watcher w key r).2.active) :
    o ∈ s.active ∨ ∃ replaced, (s.start watcher w key r).1 = .ok ⟨o.key, replaced⟩ := by
  unfold start at h ⊢
  dsimp only at h ⊢
  split at h
  case h_1 => exact .inl (mem_of_mem_close h).1
  case h_2 =>
    rcases List.mem_append.mp h with h | h
    · exact .inl (mem_of_mem_close h).1
    · rw [List.mem_singleton.mp h]
      exact .inr ⟨_, rfl⟩

/-- A session is an old one, or the one that was asked for. -/
theorem of_mem_watch [FileSystem ω] {inRuntime : Bool} {w : ω} {r : CompileRequest}
    (h : o ∈ (s.watch watcher inRuntime w r).2.active) :
    o ∈ s.active ∨ ∃ replaced, (s.watch watcher inRuntime w r).1 = .ok ⟨o.key, replaced⟩ := by
  rw [watch_eq] at h ⊢
  split at h
  case h_1 => exact .inl h
  case h_2 => exact of_mem_start h

end Sessions

namespace Schedule

variable {ω π ν : Type} {s s' : Schedule ω ν} {key : Path} {n : Nat} {c c' : Call}

/-! ## Calls in the course of time -/

/-- A session of the key has asked for the call and has not reported it. -/
def IsDue (s : Schedule ω ν) (key : Path) (n : Nat) : Prop :=
  ∃ c, s.calls[n]? = some c ∧ c.isOf key = true ∧ c.isReported = false

/-- All calls are there at a later time. -/
def Ages (s s' : Schedule ω ν) : Prop :=
  ∀ (n : Nat) (c : Call), s.calls[n]? = some c → ∃ c', s'.calls[n]? = some c' ∧ c.Becomes c'

theorem ages_of_eq (h : s'.calls = s.calls) : s.Ages s' := by
  intro n c hc
  exact ⟨c, h ▸ hc, .refl c⟩

theorem ages_of_append (h : s'.calls = s.calls ++ [c']) : s.Ages s' := by
  intro n c hc
  refine ⟨c, ?_, .refl c⟩
  rw [h, List.getElem?_append_left (List.getElem?_eq_some_iff.mp hc).1, hc]

theorem getElem?_of_set (hc : s.calls[n]? = some c) (h : s'.calls = s.calls.set n c') :
    s'.calls[n]? = some c' := by
  rw [h, List.getElem?_set_self (List.getElem?_eq_some_iff.mp hc).1]

theorem ages_of_set (hc : s.calls[n]? = some c) (hbecomes : c.Becomes c')
    (h : s'.calls = s.calls.set n c') : s.Ages s' := by
  intro m d hd
  by_cases hm : n = m
  · subst hm
    obtain rfl := Option.some.inj (hc.symm.trans hd)
    exact ⟨c', getElem?_of_set hc h, hbecomes⟩
  · exact ⟨d, by rw [h, List.getElem?_set_ne hm, hd], .refl d⟩

theorem isDue_of_eq (h : s'.calls = s.calls) {m : Nat} (hm : s'.IsDue key m) : s.IsDue key m := by
  unfold IsDue at hm ⊢
  rwa [← h]

theorem isDue_of_set (hc : s.calls[n]? = some c) (hbecomes : c.Becomes c')
    (h : s'.calls = s.calls.set n c') {m : Nat} (hm : s'.IsDue key m) : s.IsDue key m := by
  obtain ⟨d, hd, hof, hfree⟩ := hm
  by_cases hnm : n = m
  · subst hnm
    rw [getElem?_of_set hc h] at hd
    cases hd
    rw [hbecomes.isOf] at hof
    refine ⟨c, hc, hof, Bool.eq_false_iff.mpr fun hreported => ?_⟩
    exact Bool.eq_false_iff.mp hfree (hbecomes.isReported hreported)
  · rw [h, List.getElem?_set_ne hnm] at hd
    exact ⟨d, hd, hof, hfree⟩

/-! ## What a step tells -/

/-- What a step does to the calls and the reports. -/
inductive Tells (s s' : Schedule ω ν) : Prop
  | still : s'.calls = s.calls → s'.reports = s.reports → Tells s s'
  | works {n : Nat} {c c' : Call} : s.calls[n]? = some c → c.Becomes c' → s'.calls = s.calls.set n c' →
      s'.reports = s.reports → Tells s s'
  /-- Whoever asks is no session, or it is open. -/
  | asks {c : Call} : (∀ key ∈ c.session, ∃ o ∈ s.sessions.active, o.key = key) →
      s'.calls = s.calls ++ [c] → s'.reports = s.reports → Tells s s'
  | refuses {o outcome} : o ∈ s.sessions.active → s'.calls = s.calls →
      s'.reports = s.reports ++ [⟨o.key, outcome⟩] → Tells s s'
  | reports {n : Nat} {c : Call} {key : Path} {outcome} : s.calls[n]? = some c → c.session = some key →
      c.result? = some outcome → c.isReported = false →
      s'.calls = s.calls.set n { c with isReported := true } →
      s'.reports = s.reports ++ [⟨key, outcome⟩] → Tells s s'

namespace Tells

theorem withCall {act : Nat → Call → Schedule ω ν → Schedule ω ν}
    (hact : ∀ c, s.calls[n]? = some c → s.Tells (act n c s)) : s.Tells (s.withCall n act) := by
  unfold Schedule.withCall
  cases hc : s.calls[n]? with
  | none => exact .still rfl rfl
  | some c => exact hact c hc

theorem start (hc : s.calls[n]? = some c) : s.Tells (s.start n c) := by
  unfold Schedule.start
  split
  case isFalse => exact .still rfl rfl
  case isTrue hready =>
    have hwaits := (Bool.and_eq_true_iff.mp hready).1
    have hnone : c.result? = none := by
      unfold Call.isWaiting at hwaits
      unfold Call.result?
      split at hwaits <;> simp_all
    exact .works hc (Call.becomes_withStage hnone .started) rfl rfl

theorem prepare [FileSystem ω] (e : Engine ω π) (hc : s.calls[n]? = some c) :
    s.Tells (s.prepare e n c) := by
  unfold Schedule.prepare
  split
  case h_1 hstage =>
    have hnone : c.result? = none := by simp only [Call.result?, hstage]
    exact .works hc (Call.becomes_withStage hnone _) rfl rfl
  case h_2 => exact .still rfl rfl

theorem commit [FileSystem ω] (hc : s.calls[n]? = some c) : s.Tells (s.commit n c) := by
  unfold Schedule.commit
  split
  case h_1 hstage | h_2 hstage =>
    have hnone : c.result? = none := by simp only [Call.result?, hstage]
    exact .works hc (Call.becomes_withStage hnone _) rfl rfl
  case h_3 => exact .still rfl rfl

theorem report (hc : s.calls[n]? = some c) : s.Tells (s.report n c) := by
  unfold Schedule.report
  split
  case h_2 => exact .still rfl rfl
  case h_1 key outcome hsession hresult =>
    split
    case isTrue => exact .still rfl rfl
    case isFalse hfree =>
      rw [Bool.or_eq_true, not_or] at hfree
      exact .reports hc hsession hresult (Bool.eq_false_iff.mpr hfree.1) rfl rfl

theorem abandon (hc : s.calls[n]? = some c) : s.Tells (s.abandon n c) := by
  unfold Schedule.abandon
  split
  · exact .still rfl rfl
  · have hbecomes : c.Becomes { c with isAbandoned := true } := ⟨rfl, id, fun _ h => h⟩
    exact .works hc hbecomes rfl rfl

theorem deliver [FileSystem ω] (subscription : Nat) : s.Tells (s.deliver subscription) := by
  unfold Schedule.deliver
  cases ho : s.sessions.active.find? (·.subscription = subscription) with
  | none => exact .still rfl rfl
  | some o =>
      have hmem := List.mem_of_find?_eq_some ho
      dsimp only
      split
      case h_1 =>
        refine .asks (fun key hkey => ⟨o, hmem, ?_⟩) rfl rfl
        simpa using hkey
      case h_2 => exact .refuses hmem rfl rfl

end Tells

theorem tells_step [FileSystem ω] (e : Engine ω π) (watcher : Watcher ω ν) (s : Schedule ω ν)
    (st : Step ω) : s.Tells (s.step e watcher st) := by
  cases st with
  | ask r target =>
      refine .asks (fun key hkey => ?_) rfl rfl
      cases hkey
  | start n => exact .withCall fun c hc => .start hc
  | prepare n => exact .withCall fun c hc => .prepare e hc
  | commit n => exact .withCall fun c hc => .commit hc
  | report n => exact .withCall fun c hc => .report hc
  | abandon n => exact .withCall fun c hc => .abandon hc
  | deliver n => exact .deliver n
  | release n =>
      refine .withCall fun c hc => ?_
      unfold Schedule.release
      split <;> exact .still rfl rfl
  | grant | forget | watch | stop | stopAll | change => exact .still rfl rfl

/-! ## Without a session -/

/-- The key has no session, and what was reported of it came from calls that were due before, each of
them once. -/
structure Hushed (key : Path) (s₀ s : Schedule ω ν) (later : List WatchReport) (ns : List Nat) :
    Prop where
  closed : ∀ o ∈ s.sessions.active, o.key.same key = false
  reports : s.reports = s₀.reports ++ later
  due : ∀ n, s.IsDue key n → s₀.IsDue key n
  nodup : ns.Nodup
  spent : ∀ n ∈ ns, s₀.IsDue key n ∧ ∃ c, s.calls[n]? = some c ∧ c.isReported = true
  told : List.Forall₂ (fun n report => s.calls[n]?.bind Call.result? = some report.outcome) ns
    (later.filter (·.key.same key))

namespace Hushed

variable {s₀ : Schedule ω ν} {later more : List WatchReport} {ns : List Nat}

theorem spent_of_ages (h : Hushed key s₀ s later ns) (hages : s.Ages s') :
    ∀ n ∈ ns, s₀.IsDue key n ∧ ∃ c, s'.calls[n]? = some c ∧ c.isReported = true := by
  intro n hn
  obtain ⟨hdue, c, hc, hreported⟩ := h.spent n hn
  obtain ⟨c', hc', hbecomes⟩ := hages n c hc
  exact ⟨hdue, c', hc', hbecomes.isReported hreported⟩

theorem told_of_ages (h : Hushed key s₀ s later ns) (hages : s.Ages s') :
    List.Forall₂ (fun n report => s'.calls[n]?.bind Call.result? = some report.outcome) ns
      (later.filter (·.key.same key)) := by
  refine h.told.imp fun n report hresult => ?_
  obtain ⟨c, hc, hresult⟩ := Option.bind_eq_some_iff.mp hresult
  obtain ⟨c', hc', hbecomes⟩ := hages n c hc
  exact Option.bind_eq_some_iff.mpr ⟨c', hc', hbecomes.result _ hresult⟩

/-- Nothing is reported of the key. -/
theorem age (h : Hushed key s₀ s later ns)
    (hclosed : ∀ o ∈ s'.sessions.active, o.key.same key = false) (hages : s.Ages s')
    (hdue : ∀ n, s'.IsDue key n → s.IsDue key n) (hreports : s'.reports = s.reports ++ more)
    (hmore : ∀ report ∈ more, report.key.same key = false) :
    Hushed key s₀ s' (later ++ more) ns where
  closed := hclosed
  reports := by rw [hreports, h.reports, List.append_assoc]
  due n hn := h.due n (hdue n hn)
  nodup := h.nodup
  spent := h.spent_of_ages hages
  told := by
    have hnone : more.filter (·.key.same key) = [] :=
      List.filter_eq_nil_iff.mpr fun report hr => by simp [hmore report hr]
    rw [List.filter_append, hnone, List.append_nil]
    exact h.told_of_ages hages

/-- A call that is due is reported. -/
theorem tell (h : Hushed key s₀ s later ns)
    (hclosed : ∀ o ∈ s'.sessions.active, o.key.same key = false) {k : Path}
    {outcome : Except Failure Compilation} (hc : s.calls[n]? = some c) (hsession : c.session = some k)
    (hkey : k.same key = true) (hresult : c.result? = some outcome) (hfree : c.isReported = false)
    (hcalls : s'.calls = s.calls.set n { c with isReported := true })
    (hreports : s'.reports = s.reports ++ [⟨k, outcome⟩]) :
    Hushed key s₀ s' (later ++ [⟨k, outcome⟩]) (ns ++ [n]) where
  closed := hclosed
  reports := by rw [hreports, h.reports, List.append_assoc]
  due m hm := h.due m (isDue_of_set hc c.becomes_reported hcalls hm)
  nodup := by
    refine List.nodup_append.mpr ⟨h.nodup, List.nodup_singleton n, fun m hm m' hm' heq => ?_⟩
    -- what was reported before is not reported again
    obtain ⟨-, d, hd, hreported⟩ := h.spent m hm
    rw [heq, List.mem_singleton.mp hm', hc] at hd
    cases hd
    rw [hfree] at hreported
    cases hreported
  spent := by
    intro m hm
    rcases List.mem_append.mp hm with hm | hm
    · exact h.spent_of_ages (ages_of_set hc c.becomes_reported hcalls) m hm
    · obtain rfl := List.mem_singleton.mp hm
      exact ⟨h.due m ⟨c, hc, by simp [Call.isOf, hsession, hkey], hfree⟩, _,
        getElem?_of_set hc hcalls, rfl⟩
  told := by
    have hages := ages_of_set hc c.becomes_reported hcalls
    rw [List.filter_append, List.filter_cons_of_pos (by exact hkey), List.filter_nil]
    refine List.rel_append (h.told_of_ages hages) (.cons ?_ .nil)
    rw [getElem?_of_set hc hcalls]
    exact hresult

theorem step (h : Hushed key s₀ s later ns)
    (hclosed : ∀ o ∈ s'.sessions.active, o.key.same key = false) (hstep : s.Tells s') :
    ∃ later ns, Hushed key s₀ s' later ns := by
  have hnil {reports : List WatchReport} (hr : reports = s.reports) : reports = s.reports ++ [] := by
    rw [hr, List.append_nil]
  cases hstep with
  | still hcalls hreports =>
      exact ⟨_, _, h.age hclosed (ages_of_eq hcalls) (fun n => isDue_of_eq hcalls) (hnil hreports) nofun⟩
  | works hc hbecomes hcalls hreports =>
      exact ⟨_, _, h.age hclosed (ages_of_set hc hbecomes hcalls)
        (fun n => isDue_of_set hc hbecomes hcalls) (hnil hreports) nofun⟩
  | asks hopen hcalls hreports =>
      refine ⟨_, _, h.age hclosed (ages_of_append hcalls) ?_ (hnil hreports) nofun⟩
      intro n ⟨d, hd, hof, hfree⟩
      rw [hcalls, List.getElem?_append] at hd
      split at hd
      case isTrue => exact ⟨d, hd, hof, hfree⟩
      case isFalse =>
        -- the key has no session that could ask
        obtain rfl := List.mem_singleton.mp (List.mem_of_getElem? hd)
        obtain ⟨k, hk, hkey⟩ := (Option.any_eq_true _ _).mp hof
        obtain ⟨o, ho, rfl⟩ := hopen k hk
        rw [h.closed o ho] at hkey
        cases hkey
  | refuses ho hcalls hreports =>
      refine ⟨_, _, h.age hclosed (ages_of_eq hcalls) (fun n => isDue_of_eq hcalls) hreports ?_⟩
      exact List.forall_mem_singleton.mpr (h.closed _ ho)
  | @reports n c k outcome hc hsession hresult hfree hcalls hreports =>
      cases hkey : k.same key with
      | true => exact ⟨_, _, h.tell hclosed hc hsession hkey hresult hfree hcalls hreports⟩
      | false =>
          exact ⟨_, _, h.age hclosed (ages_of_set hc c.becomes_reported hcalls)
            (fun n => isDue_of_set hc c.becomes_reported hcalls) hreports
            (List.forall_mem_singleton.mpr hkey)⟩

end Hushed

/-! ## After a stop -/

variable [FileSystem ω]

/-- Only watching and stopping change the sessions. -/
theorem sessions_step (e : Engine ω π) (watcher : Watcher ω ν) (s : Schedule ω ν) (st : Step ω) :
    (s.step e watcher st).sessions = match st with
      | .watch r => (s.sessions.watch watcher true s.world r).2
      | .stop p => (s.sessions.stop watcher s.world p).2
      | .stopAll => (s.sessions.stopAll watcher).2
      | _ => s.sessions := by
  have hcall {n : Nat} {act : Nat → Call → Schedule ω ν → Schedule ω ν}
      (hact : ∀ c, (act n c s).sessions = s.sessions) : (s.withCall n act).sessions = s.sessions := by
    unfold withCall
    split
    · exact hact _
    · rfl
  cases st with
  | start n => exact hcall fun c => by unfold start; split <;> rfl
  | prepare n => exact hcall fun c => by unfold prepare; split <;> rfl
  | commit n => exact hcall fun c => by unfold commit; split <;> rfl
  | release n => exact hcall fun c => by unfold release; split <;> rfl
  | abandon n => exact hcall fun c => by unfold abandon; split <;> rfl
  | report n =>
      refine hcall fun c => ?_
      unfold report
      split
      · split <;> rfl
      · rfl
  | deliver n =>
      simp only [step, deliver]
      split
      · rfl
      · split <;> rfl
  | _ => rfl

/-- The step stops the session of the key, or all sessions. -/
def Step.Stops (s : Schedule ω ν) (key : Path) : Step ω → Prop
  | .stop p => ((FileSystem.host s.world).key p).same key = true
  | .stopAll => True
  | _ => False

/-- In the course of the steps no request to watch the key is accepted. -/
def Unwatched (e : Engine ω π) (watcher : Watcher ω ν) (key : Path) :
    Schedule ω ν → List (Step ω) → Prop
  | _, [] => True
  | s, st :: steps =>
    (∀ r ack, st = .watch r → (s.sessions.watch watcher true s.world r).1 = .ok ack →
      ack.key.same key = false) ∧
    Unwatched e watcher key (s.step e watcher st) steps

theorem hushed_of_stops (e : Engine ω π) (watcher : Watcher ω ν) {st : Step ω}
    (hst : st.Stops s key) : Hushed key s (s.step e watcher st) [] [] := by
  cases st with
  | stop p =>
      refine ⟨fun o ho => ?_, (List.append_nil _).symm, fun _ hn => hn, .nil, nofun, .nil⟩
      have hclosed := (Sessions.mem_of_mem_close ho).2
      rwa [Path.same_left hst] at hclosed
  | stopAll => exact ⟨nofun, (List.append_nil _).symm, fun _ hn => hn, .nil, nofun, .nil⟩
  | _ => exact hst.elim

variable {e : Engine ω π} {watcher : Watcher ω ν} {st : Step ω}

theorem closed_of_step (h : ∀ o ∈ s.sessions.active, o.key.same key = false)
    (hst : ∀ r ack, st = .watch r → (s.sessions.watch watcher true s.world r).1 = .ok ack →
      ack.key.same key = false) :
    ∀ o ∈ (s.step e watcher st).sessions.active, o.key.same key = false := by
  intro o ho
  rw [sessions_step] at ho
  split at ho
  case h_1 r =>
    rcases Sessions.of_mem_watch ho with ho | ⟨replaced, hack⟩
    · exact h o ho
    · exact hst r ⟨o.key, replaced⟩ rfl hack
  case h_2 => exact h o (Sessions.mem_of_mem_close ho).1
  case h_3 => cases ho
  case h_4 => exact h o ho

theorem unwatched_of_forall {steps : List (Step ω)} (h : ∀ st ∈ steps, ∀ r, st ≠ .watch r) :
    Unwatched e watcher key s steps := by
  induction steps generalizing s with
  | nil => trivial
  | cons st steps ih =>
      obtain ⟨hst, hsteps⟩ := List.forall_mem_cons.mp h
      exact ⟨fun r _ heq => absurd heq (hst r), ih hsteps⟩

theorem Hushed.run {s₀ : Schedule ω ν} {later : List WatchReport} {ns : List Nat}
    (h : Hushed key s₀ s later ns) {steps : List (Step ω)}
    (hsteps : Unwatched e watcher key s steps) :
    ∃ later ns, Hushed key s₀ (s.run e watcher steps) later ns := by
  induction steps generalizing s later ns with
  | nil => exact ⟨later, ns, h⟩
  | cons st steps ih =>
      obtain ⟨hst, hsteps⟩ := hsteps
      obtain ⟨later, ns, h⟩ := h.step (closed_of_step h.closed hst) (tells_step e watcher s st)
      exact ih h hsteps

/-- Once a key is stopped, and until it is watched again, only calls that were due then are reported of
it, each of them once and with its own result. -/
theorem stopped_key_reports_due_calls (e : Engine ω π) (watcher : Watcher ω ν) (s : Schedule ω ν)
    (key : Path) (st : Step ω) (hst : st.Stops s key) (steps : List (Step ω))
    (hsteps : Unwatched e watcher key (s.step e watcher st) steps) :
    let s' := s.run e watcher (st :: steps)
    ∃ later ns, s'.reports = s.reports ++ later ∧ ns.Nodup ∧ (∀ n ∈ ns, s.IsDue key n) ∧
      List.Forall₂ (fun n report => s'.calls[n]?.bind Call.result? = some report.outcome) ns
        (later.filter (·.key.same key)) ∧
      ((∀ n, ¬ s.IsDue key n) → ∀ report ∈ later, report.key.same key = false) := by
  intro s'
  obtain ⟨later, ns, h⟩ := (hushed_of_stops e watcher hst).run hsteps
  refine ⟨later, ns, h.reports, h.nodup, fun n hn => (h.spent n hn).1, h.told, fun hnone => ?_⟩
  have hns : ns = [] := List.eq_nil_iff_forall_not_mem.mpr fun n hn => hnone n (h.spent n hn).1
  have htold := h.told
  rw [hns, List.forall₂_nil_left_iff] at htold
  intro report hr
  simpa using List.filter_eq_nil_iff.mp htold report hr

/-- Of two watched files one is stopped while a call of it is due. -/
theorem stopped_key_reports_due_calls_of_two :
    let e := Engine.onHost none
    let watcher : Watcher Workstation DirectoryWatch := .directories
    let a : Path := ⟨"/v/a.ts"⟩
    let b : Path := ⟨"/v/b.ts"⟩
    let w : Workstation :=
      { host :=
        { disk := ⟨[(["v"], .dir), (["v", "a.ts"], .file (.text "") none),
            (["v", "b.ts"], .file (.text "") none)]⟩ } }
    let s := run e watcher { world := w, sessions := { watcher := {} } }
      [.watch (.ofFile a), .watch (.ofFile b), .deliver 0]
    let s' := s.run e watcher
      (.stop a :: (courseOf 0 ++ [.deliver 0, .deliver 1] ++ courseOf 1))
    s.IsDue a 0 ∧ s'.reports.map (·.key) = [a, b] ∧
      ∃ later ns, s'.reports = s.reports ++ later ∧ ns.Nodup ∧ (∀ n ∈ ns, s.IsDue a n) ∧
        List.Forall₂ (fun n report => s'.calls[n]?.bind Call.result? = some report.outcome) ns
          (later.filter (·.key.same a)) := by
  intro e watcher a b w s s'
  have hdue : s.IsDue a 0 := by
    have hcall : s.calls[0]?.map (fun c => (c.isOf a, c.isReported)) = some (true, false) := by
      decide +kernel
    obtain ⟨c, hc, hfields⟩ := Option.map_eq_some_iff.mp hcall
    exact ⟨c, hc, Prod.ext_iff.mp hfields⟩
  have hstops : (Step.stop a : Step Workstation).Stops s a := by
    show ((FileSystem.host s.world).key a).same a = true
    decide +kernel
  obtain ⟨later, ns, hreports, hnodup, hns, htold, -⟩ :=
    stopped_key_reports_due_calls e watcher s a (.stop a) hstops
      (courseOf 0 ++ [.deliver 0, .deliver 1] ++ courseOf 1)
      (unwatched_of_forall (by simp [courseOf]))
  exact ⟨hdue, by decide +kernel, later, ns, hreports, hnodup, hns, htold⟩

/-- A call that is under way when its session is stopped is reported all the same. -/
theorem stopped_key_is_reported :
    let e := Engine.onHost none
    let watcher : Watcher Workstation DirectoryWatch := .directories
    let a : Path := ⟨"/v/a.ts"⟩
    let w : Workstation :=
      { host := { disk := ⟨[(["v"], .dir), (["v", "a.ts"], .file (.text "") none)]⟩ } }
    let s := run e watcher { world := w, sessions := { watcher := {} } }
      [.watch (.ofFile a), .deliver 0]
    (s.sessions.stop watcher s.world a).1 = true ∧ s.reports.map (·.key) = [] ∧
      (s.run e watcher (.stop a :: courseOf 0)).reports.map (·.key) = [a] := by
  decide +kernel

end Schedule

end ScriptWorks

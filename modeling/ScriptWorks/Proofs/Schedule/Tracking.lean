import ScriptWorks.Proofs.Schedule.Exclusion
import ScriptWorks.Proofs.Watch.File

/-!
# Calls for a watched file

The session of a file and anybody else may ask for its compilation. All these calls share one lock, so no
two of them are at work, and a step moves one of them on.
-/

namespace ScriptWorks

namespace Gate

variable {τ : Type}

def IsFor (g : Gate τ) (key : Path) : Prop := ∀ t ∈ g.tickets, t.key.same key = true

variable [DecidableEq τ] {g : Gate τ} {key : Path}

namespace IsFor

theorem setPhase (h : g.IsFor key) (id : τ) (phase : Phase) : (g.setPhase id phase).IsFor key := by
  intro t' ht'
  obtain ⟨t, ht, rfl⟩ := List.mem_map.mp ht'
  split <;> exact h t ht

theorem join (h : g.IsFor key) (id : τ) {p : Path} (hp : p.same key = true) :
    (g.step (.join id p)).IsFor key := by
  have happend (table : List (Path × Nat)) (lock next : Nat) :
      IsFor ⟨table, g.tickets ++ [⟨id, p, lock, .waiting⟩], next⟩ key := by
    intro t ht
    rcases List.mem_append.mp ht with ht | ht
    · exact h t ht
    · rw [List.mem_singleton.mp ht]
      exact hp
  simp only [step, Gate.join]
  split
  · exact h
  · split <;> exact happend _ _ _

theorem grant (h : g.IsFor key) (id : τ) : (g.grant id).IsFor key := by
  unfold Gate.grant
  split
  · exact h.setPhase id .held
  · exact h

theorem release (h : g.IsFor key) (id : τ) : (g.release id).IsFor key := by
  unfold Gate.release
  split
  · exact h.setPhase id .leaving
  · exact h

theorem forget (h : g.IsFor key) (id : τ) : (g.forget id).IsFor key := by
  unfold Gate.forget
  split
  · split
    · exact fun t ht => h t (List.mem_of_mem_filter ht)
    · exact h
  · exact h

end IsFor

theorem Orderly.holder_unique (hg : g.Orderly) (h : g.IsFor key) {id other : τ} (hid : g.HeldBy id)
    (hother : g.HeldBy other) : id = other := by
  obtain ⟨t, ht, htp⟩ := hid
  obtain ⟨u, hu, hup⟩ := hother
  obtain ⟨htmem, rfl⟩ := ticket?_eq_some ht
  obtain ⟨humem, rfl⟩ := ticket?_eq_some hu
  have htl := hg.shared t htmem (by simp [htp])
  have hul := hg.shared u humem (by simp [hup])
  rw [lockOf?_of_same (h t htmem)] at htl
  rw [lockOf?_of_same (h u humem), htl] at hul
  rw [hg.exclusive t htmem u humem htp hup (Option.some.inj hul)]

end Gate

/-- Whether a session asks for a call, and how far the work has come. -/
structure Call.Standing where
  ofSession : Bool
  stage : Call.Stage

def Call.standing (c : Call) : Call.Standing := ⟨c.session.isSome, c.stage⟩

/-- All calls but one wait or are done. -/
def Call.Standing.Alone (calls : List Call.Standing) (n : Nat) : Prop :=
  ∀ m c, calls[m]? = some c → m ≠ n → c.stage = .waiting ∨ ∃ result, c.stage = .finished result

namespace Call

variable {ω π : Type} [FileSystem ω]

/-- If the call is to read its sources now, it finds all that it is to write. -/
def prepares (e : Engine ω π) (w : ω) (c : Call) : Bool :=
  match c.stage with
  | .started =>
    match Draft.prepare e c.request c.target w with
    | (.ok d, _) => !d.incomplete
    | (.error _, _) => false
  | _ => true

theorem exists_draft {e : Engine ω π} {w : ω} {c : Call} (hstage : c.stage = .started)
    (h : c.prepares e w = true) :
    ∃ d left, Draft.prepare e c.request c.target w = (.ok d, left) ∧ d.incomplete = false := by
  unfold prepares at h
  rw [hstage] at h
  split at h
  case h_2 hstage => exact absurd rfl hstage
  case h_1 =>
    split at h
    case h_1 d left hprepare => exact ⟨d, left, hprepare, by simpa using h⟩
    case h_2 => cases h

/-- If the call is to write its files now, all of them are written. -/
def commits (w : ω) (c : Call) : Bool :=
  match c.stage with
  | .prepared (.ok d) => (d.commit w).1.outputFiles = d.files
  | .prepared (.error _) => false
  | _ => true

end Call

namespace WatchedFile

variable {ω π ν : Type} [FileSystem ω] [LawfulFileSystem ω]

/-- The call compiles the file under this path, for the options of its session, and somebody waits for
it. A session compiles the file under its own path. -/
structure Owns (f : WatchedFile ω) (q : Path) (c : Call) : Prop where
  target : c.target = .file q
  mem : q ∈ f.spellings
  options : f.SameOptions c.request
  stays : c.isAbandoned = false
  path : c.session.isSome = true → q = f.path

theorem Owns.withStage {f : WatchedFile ω} {q : Path} {c : Call} (h : f.Owns q c)
    (stage : Call.Stage) : f.Owns q { c with stage } :=
  ⟨h.target, h.mem, h.options, h.stays, h.path⟩

/-- The steps of calls for the file. They go through the gate, read the file, and write the script, and
nothing of it fails. -/
inductive Permits (e : Engine ω π) (f : WatchedFile ω) (s : Schedule ω ν) : Schedule.Step ω → Prop
  | ask {r q} : q ∈ f.spellings → f.SameOptions r → Permits e f s (.ask r (.file q))
  | grant (n) : Permits e f s (.grant n)
  | start (n) : Permits e f s (.start n)
  | prepare {n} : (∀ c ∈ s.calls[n]?, c.prepares e s.world = true) → Permits e f s (.prepare n)
  | commit {n} : (∀ c ∈ s.calls[n]?, c.commits s.world = true) → Permits e f s (.commit n)
  | release (n) : Permits e f s (.release n)
  | forget (n) : Permits e f s (.forget n)
  | report (n) : Permits e f s (.report n)

open Call.Standing in
/-- What a step comes to, seen from the calls and the world. -/
inductive Advance (e : Engine ω π) (f : WatchedFile ω) :
    List Call.Standing × ω → List Call.Standing × ω → Prop
  | still {calls w} : Advance e f (calls, w) (calls, w)
  | ask {calls w} (ofSession) : Advance e f (calls, w) (calls ++ [⟨ofSession, .waiting⟩], w)
  | start {calls w n ofSession} : calls[n]? = some ⟨ofSession, .waiting⟩ →
      Advance e f (calls, w) (calls.set n ⟨ofSession, .started⟩, w)
  | prepare {calls w w' n ofSession q text d} : calls[n]? = some ⟨ofSession, .started⟩ →
      Alone calls n → f.source w = .ok text → f.IsDraft e q text d →
      (ofSession = true → q = f.path) → SameFiles w w' →
      Advance e f (calls, w) (calls.set n ⟨ofSession, .prepared (.ok d)⟩, w')
  | commit {calls w n ofSession d} : calls[n]? = some ⟨ofSession, .prepared (.ok d)⟩ →
      Alone calls n → (d.commit w).1.outputFiles = d.files →
      Advance e f (calls, w)
        (calls.set n ⟨ofSession, .finished (.ok (d.commit w).1)⟩, (d.commit w).2)

end WatchedFile

namespace Schedule

variable {ω π ν : Type}

def view (s : Schedule ω ν) : List Call.Standing × ω := (s.calls.map Call.standing, s.world)

theorem getElem?_view {s : Schedule ω ν} {n : Nat} {c : Call} (hc : s.calls[n]? = some c)
    {stage : Call.Stage} (hstage : c.stage = stage) :
    s.view.1[n]? = some ⟨c.session.isSome, stage⟩ := by
  unfold view
  rw [List.getElem?_map, hc, Option.map_some, Call.standing, hstage]

variable [FileSystem ω]

theorem view_enqueue (s : Schedule ω ν) (r : CompileRequest) (target : CompileTarget)
    (session : Option Path) :
    (s.enqueue r target session).view = (s.view.1 ++ [⟨session.isSome, .waiting⟩], s.world) := by
  unfold Schedule.enqueue view
  rw [List.map_append]
  rfl

variable [LawfulFileSystem ω]

/-- Every call is one for the file, whose session is open. -/
structure Tracks (f : WatchedFile ω) (s : Schedule ω ν) : Prop where
  gate : s.gate.IsFor f.session.key
  session : s.sessions.active.find? (·.subscription = f.session.subscription) = some f.session
  owned : ∀ c ∈ s.calls, ∃ q, f.Owns q c

/-- The schedule goes on to another one of the file. -/
structure Advances (e : Engine ω π) (f : WatchedFile ω) (s s' : Schedule ω ν) : Prop where
  tracks : s'.Tracks f
  view : f.Advance e s.view s'.view

namespace Tracks

variable {e : Engine ω π} {f : WatchedFile ω} {s : Schedule ω ν} {n : Nat} {c : Call}

/-- While a call for the file is at work, every other one waits or is done. -/
theorem alone (h : s.Tracks f) (hs : s.Guarded) (hc : s.calls[n]? = some c)
    (hrun : c.isRunning = true) : Call.Standing.Alone s.view.1 n := by
  intro m x hx hne
  unfold view at hx
  rw [List.getElem?_map] at hx
  obtain ⟨d, hd, rfl⟩ := Option.map_eq_some_iff.mp hx
  have hidle : d.isRunning = false := by
    rw [← Bool.not_eq_true]
    intro hdrun
    obtain ⟨_, hcowned⟩ := h.owned c (List.mem_of_getElem? hc)
    obtain ⟨_, hdowned⟩ := h.owned d (List.mem_of_getElem? hd)
    have hholds := hs.held n c hc hrun hcowned.stays
    have hholds' := hs.held m d hd hdrun hdowned.stays
    exact hne (hs.orderly.holder_unique h.gate hholds' hholds)
  unfold Call.isRunning at hidle
  cases hstage : d.stage with
  | waiting => exact .inl hstage
  | finished result => exact .inr ⟨result, hstage⟩
  | started | prepared =>
      rw [hstage] at hidle
      cases hidle

theorem moveOn (h : s.Tracks f) (hc : s.calls[n]? = some c) {c' : Call}
    (howns : ∀ q, f.Owns q c → f.Owns q c') {s' : Schedule ω ν} (hgate : s'.gate = s.gate)
    (hsessions : s'.sessions = s.sessions) (hcalls : s'.calls = s.calls.set n c')
    (hview : f.Advance e s.view (s.view.1.set n c'.standing, s'.world)) : s.Advances e f s' where
  tracks :=
    { gate := hgate ▸ h.gate
      session := hsessions ▸ h.session
      owned := by
        intro d hd
        rw [hcalls] at hd
        rcases List.mem_or_eq_of_mem_set hd with hd | rfl
        · exact h.owned d hd
        · obtain ⟨q, hq⟩ := h.owned c (List.mem_of_getElem? hc)
          exact ⟨q, howns q hq⟩ }
  view := by
    have hset : s'.view.1 = s.view.1.set n c'.standing := by
      unfold view
      rw [hcalls, List.map_set]
    rwa [← hset] at hview

theorem withCall (h : s.Tracks f) {act : Nat → Call → Schedule ω ν → Schedule ω ν}
    (hact : ∀ c, s.calls[n]? = some c → s.Advances e f (act n c s)) :
    s.Advances e f (s.withCall n act) := by
  unfold Schedule.withCall
  cases hc : s.calls[n]? with
  | none => exact ⟨h, .still⟩
  | some c => exact hact c hc

/-! ## Steps -/

theorem enqueue (h : s.Tracks f) (hw : f.Stable e s.world) {q : Path} (hq : q ∈ f.spellings)
    {r : CompileRequest} (hr : f.SameOptions r) {session : Option Path}
    (hpath : session.isSome = true → q = f.path) :
    s.Advances e f (s.enqueue r (.file q) session) where
  tracks :=
    { gate := h.gate.join _ (hw.key q hq)
      session := h.session
      owned := by
        intro c hc
        rcases List.mem_append.mp hc with hc | hc
        · exact h.owned c hc
        · rw [List.mem_singleton.mp hc]
          exact ⟨q, rfl, hq, hr, rfl, hpath⟩ }
  view := by
    rw [view_enqueue]
    exact .ask session.isSome

theorem start (h : s.Tracks f) (hc : s.calls[n]? = some c) : s.Advances e f (s.start n c) := by
  unfold Schedule.start
  split
  case isFalse => exact ⟨h, .still⟩
  case isTrue hready =>
    have hwaits : c.stage = .waiting := by
      have hwaiting := (Bool.and_eq_true_iff.mp hready).1
      unfold Call.isWaiting at hwaiting
      cases hstage : c.stage <;> simp [hstage] at hwaiting
      rfl
    exact h.moveOn hc (fun _ hq => hq.withStage .started) rfl rfl rfl
      (.start (getElem?_view hc hwaits))

theorem prepare (h : s.Tracks f) (hs : s.Guarded) (he : e.KeepsFiles) (hw : f.Stable e s.world)
    (hc : s.calls[n]? = some c) (hgood : c.prepares e s.world = true) :
    s.Advances e f (s.prepare e n c) := by
  unfold Schedule.prepare
  split
  case h_2 => exact ⟨h, .still⟩
  case h_1 hstage =>
    obtain ⟨d, w, hprepare, hcomplete⟩ := Call.exists_draft hstage hgood
    obtain ⟨q, howns⟩ := h.owned c (List.mem_of_getElem? hc)
    have halone := h.alone hs hc (by rw [Call.isRunning, hstage])
    have hsame := Draft.sameFiles_of_prepare he hprepare
    simp only [hprepare]
    rw [howns.target] at hprepare
    obtain ⟨text, htext, hdraft⟩ := hw.isDraft howns.mem howns.options hprepare hcomplete
    exact h.moveOn hc (fun _ hq => hq.withStage (.prepared (.ok d))) rfl rfl rfl
      (.prepare (getElem?_view hc hstage) halone htext hdraft howns.path hsame)

theorem commit (h : s.Tracks f) (hs : s.Guarded) (hc : s.calls[n]? = some c)
    (hgood : c.commits s.world = true) : s.Advances e f (s.commit n c) := by
  unfold Schedule.commit
  unfold Call.commits at hgood
  split
  case h_1 failure hstage =>
    rw [hstage] at hgood
    cases hgood
  case h_3 => exact ⟨h, .still⟩
  case h_2 d hstage =>
    rw [hstage] at hgood
    have hall := of_decide_eq_true hgood
    have halone := h.alone hs hc (by rw [Call.isRunning, hstage])
    exact h.moveOn hc (fun _ hq => hq.withStage _) rfl rfl rfl
      (.commit (getElem?_view hc hstage) halone hall)

theorem release (h : s.Tracks f) (n : Nat) (c : Call) : s.Advances e f (s.release n c) := by
  unfold Schedule.release
  split
  · exact ⟨{ h with gate := h.gate.release n }, .still⟩
  · exact ⟨h, .still⟩

theorem report (h : s.Tracks f) (hc : s.calls[n]? = some c) : s.Advances e f (s.report n c) := by
  unfold Schedule.report
  split
  case h_2 => exact ⟨h, .still⟩
  case h_1 =>
    split
    case isTrue => exact ⟨h, .still⟩
    case isFalse =>
      have howns (q : Path) (hq : f.Owns q c) : f.Owns q { c with isReported := true } :=
        ⟨hq.target, hq.mem, hq.options, hq.stays, hq.path⟩
      refine h.moveOn hc howns rfl rfl rfl ?_
      have hkept : s.view.1.set n c.standing = s.view.1 := by
        obtain ⟨hn, hstanding⟩ := List.getElem?_eq_some_iff.mp (getElem?_view hc rfl)
        rw [Call.standing, ← hstanding, List.set_getElem_self]
      show f.Advance e s.view (s.view.1.set n c.standing, s.world)
      rw [hkept]
      exact .still

theorem step (h : s.Tracks f) (hs : s.Guarded) (he : e.KeepsFiles) (watcher : Watcher ω ν)
    (hw : f.Stable e s.world) {st : Step ω} (hst : f.Permits e s st) :
    s.Advances e f (s.step e watcher st) := by
  cases hst with
  | ask hq hr => exact h.enqueue hw hq hr fun hsession => nomatch hsession
  | grant n => exact ⟨{ h with gate := h.gate.grant n }, .still⟩
  | start n => exact h.withCall fun c hc => h.start hc
  | prepare hgood => exact h.withCall fun c hc => h.prepare hs he hw hc (hgood c hc)
  | commit hgood => exact h.withCall fun c hc => h.commit hs hc (hgood c hc)
  | release n => exact h.withCall fun c _ => h.release n c
  | forget n => exact ⟨{ h with gate := h.gate.forget n }, .still⟩
  | report n => exact h.withCall fun c hc => h.report hc

end Tracks

end Schedule

end ScriptWorks

import ScriptWorks.Engine.Scripted
import ScriptWorks.Proofs.Watch.Subscription
import ScriptWorks.Watch.Session

/-!
# Sessions and their subscriptions

A key that is watched has one open subscription, that of its session, and all other keys have none.
So it is after every operation, whichever of them fail, and at no moment has a key two subscriptions.
-/

namespace ScriptWorks

namespace Sessions

/-- What may be asked of the open sessions. -/
inductive Op where
  | watch (inRuntime : Bool) (request : CompileRequest)
  | stop (path : Path)
  | stopAll
  /-- Whoever owns the sessions gives them up. -/
  | drop

variable {ω ν : Type}

/-- Other keys keep their sessions and subscriptions. -/
def SameBeside {watcher : Watcher ω ν} (v : watcher.View) (key : Path) (s s' : Sessions ν) : Prop :=
  ∀ other : Path, other.same key = false →
    s'.find? other = s.find? other ∧ v.liveOn s'.watcher other = v.liveOn s.watcher other

/-- The open subscriptions are those of the sessions, each key has one session at most, and the state
of the watcher is one that can be. -/
structure Registered {watcher : Watcher ω ν} (v : watcher.View) (s : Sessions ν) : Prop where
  sound : v.Sound s.watcher
  live : (v.live s.watcher).Perm (s.active.map fun o => (o.subscription, o.key))
  keys : s.active.Pairwise fun o p => o.key.same p.key = false
  numbers : (s.active.map (·.subscription)).Nodup

/-! ## Keys -/

theorem find?_eq_some {s : Sessions ν} {key : Path} {o : WatchSession} (h : s.find? key = some o) :
    o ∈ s.active ∧ o.key.same key = true :=
  ⟨List.mem_of_find?_eq_some h, by simpa using List.find?_some h⟩

theorem find?_close (active : List WatchSession) (key other : Path) :
    (active.filter (!·.key.same key)).find? (·.key.same other) =
      if other.same key then none else active.find? (·.key.same other) := by
  by_cases hsame : other.same key = true
  · rw [if_pos hsame, List.find?_eq_none]
    intro o ho
    have hkey := (List.mem_filter.mp ho).2
    rw [Path.same_left hsame]
    simpa using hkey
  · rw [if_neg hsame, List.find?_filter]
    congr 1
    funext o
    cases ho : o.key.same other with
    | false => simp
    | true =>
        have hother : o.key.same key = other.same key := by
          rw [Path.same_comm o.key, Path.same_comm other, Path.same_left ho]
        simpa [hother] using hsame

theorem find?_append (active : List WatchSession) (o : WatchSession) (key : Path) :
    (active ++ [o]).find? (·.key.same key) =
      (active.find? (·.key.same key)).or (if o.key.same key then some o else none) := by
  rw [List.find?_append, List.find?_singleton]

/-- Of sessions with different keys there is one for a key at most. -/
theorem filter_eq_find? {active : List WatchSession}
    (hkeys : active.Pairwise fun o p => o.key.same p.key = false) (key : Path) :
    active.filter (·.key.same key) = (active.find? (·.key.same key)).toList := by
  induction active with
  | nil => rfl
  | cons o active ih =>
      rw [List.pairwise_cons] at hkeys
      cases ho : o.key.same key with
      | false =>
          rw [List.filter_cons_of_neg (by simp [ho]), List.find?_cons_of_neg (by simp [ho])]
          exact ih hkeys.2
      | true =>
          have hothers : active.filter (·.key.same key) = [] := by
            rw [List.filter_eq_nil_iff]
            intro p hp hsame
            have hne := hkeys.1 p hp
            rw [Path.same_comm, Path.same_left ho, hsame] at hne
            cases hne
          rw [List.filter_cons_of_pos (by exact ho), List.find?_cons_of_pos (by exact ho), hothers]
          rfl

namespace Registered

variable {watcher : Watcher ω ν} {v : watcher.View} {s : Sessions ν}

theorem nil {state : ν} (hs : v.Sound state) (hnone : v.live state = []) :
    Registered v { watcher := state } := ⟨hs, by rw [hnone]; exact .refl _, .nil, List.nodup_nil⟩

theorem filter_key (h : s.Registered v) (key : Path) :
    s.active.filter (·.key.same key) = (s.find? key).toList :=
  filter_eq_find? h.keys key

theorem liveOn_eq (h : s.Registered v) (key : Path) :
    v.liveOn s.watcher key = ((s.find? key).map (·.subscription)).toList := by
  have hlive : (v.liveOn s.watcher key).Perm ((s.find? key).toList.map (·.subscription)) := by
    have hperm := ((h.live.filter (·.2.same key)).map (·.1))
    rw [List.filter_map, List.map_map] at hperm
    rw [← h.filter_key key]
    exact hperm
  cases hfind : s.find? key with
  | none =>
      rw [hfind] at hlive
      exact hlive.eq_nil
  | some o =>
      rw [hfind] at hlive
      exact List.perm_singleton.mp hlive

theorem sameBeside (h : s.Registered v) {s' : Sessions ν} (h' : s'.Registered v) {key : Path}
    (hfind : ∀ other, other.same key = false → s'.find? other = s.find? other) :
    SameBeside v key s s' := by
  intro other hother
  refine ⟨hfind other hother, ?_⟩
  rw [h'.liveOn_eq, h.liveOn_eq, hfind other hother]

/-- The numbers of the other sessions are the other numbers. -/
theorem filter_subscription (h : s.Registered v) {o : WatchSession} {key : Path}
    (ho : s.find? key = some o) :
    s.active.filter (·.subscription ≠ o.subscription) = s.active.filter (!·.key.same key) := by
  refine List.filter_congr fun p hp => ?_
  obtain ⟨hmem, hsame⟩ := find?_eq_some ho
  by_cases hp' : p.key.same key = true
  · have hpo : p ∈ (s.find? key).toList := by
      rw [← h.filter_key]
      exact List.mem_filter.mpr ⟨hp, hp'⟩
    rw [ho, Option.mem_toList, Option.some.injEq] at hpo
    simp [← hpo, hsame]
  · have hne : p.subscription ≠ o.subscription := by
      intro heq
      rw [List.inj_on_of_nodup_map h.numbers hp hmem heq] at hp'
      exact hp' hsame
    simp [hne, hp']

/-! ## Operations -/

/-- Closing a key takes away its session and its subscription. -/
theorem close (h : s.Registered v) (key : Path) :
    (s.close watcher key).1 = (s.find? key).isSome ∧
      (s.close watcher key).2.active = s.active.filter (!·.key.same key) ∧
      (s.close watcher key).2.Registered v := by
  unfold Sessions.close
  cases ho : s.find? key with
  | none =>
      have hall : s.active.filter (!·.key.same key) = s.active :=
        List.filter_eq_self.mpr fun o hmem => by simpa using List.find?_eq_none.mp ho o hmem
      exact ⟨rfl, hall.symm, h⟩
  | some o =>
      obtain ⟨hsound, hlive⟩ := v.unsubscribe o.subscription h.sound
      refine ⟨rfl, rfl, hsound, ?_, h.keys.filter _, h.numbers.sublist (List.filter_sublist.map _)⟩
      refine hlive.trans ?_
      have hperm := h.live.filter (·.1 ≠ o.subscription)
      rw [List.filter_map] at hperm
      rw [← h.filter_subscription ho]
      exact hperm

theorem find?_of_close (h : s.Registered v) (key other : Path) :
    (s.close watcher key).2.find? other = if other.same key then none else s.find? other := by
  unfold find?
  rw [(h.close key).2.1]
  exact find?_close s.active key other

/-- No subscription to a key is left once it is closed. -/
theorem free_of_close (h : s.Registered v) (key : Path) :
    ∀ e ∈ v.live (s.close watcher key).2.watcher, e.2.same key = false := by
  obtain ⟨-, hactive, hclosed⟩ := h.close key
  intro e he
  obtain ⟨o, ho, rfl⟩ := List.mem_map.mp (hclosed.live.mem_iff.mp he)
  rw [hactive] at ho
  simpa using (List.mem_filter.mp ho).2

/-- What starting a session comes to. -/
inductive Starts (watcher : Watcher ω ν) (v : watcher.View) (w : ω) (key : Path) (s : Sessions ν) :
    Except Failure WatchAck → Sessions ν → Prop
  /-- The watcher fails, and the key is left without a session. -/
  | failed {reason s'} :
      (watcher.subscribe w key (s.close watcher key).2.watcher).1 = .error reason →
      s'.find? key = none → v.liveOn s'.watcher key = [] → SameBeside v key s s' →
      Starts watcher v w key s (.error (.watch reason)) s'
  | started {n s'} :
      (watcher.subscribe w key (s.close watcher key).2.watcher).1 = .ok n →
      (s'.find? key).map (·.subscription) = some n → v.liveOn s'.watcher key = [n] →
      SameBeside v key s s' →
      Starts watcher v w key s (.ok ⟨key, (s.find? key).isSome⟩) s'

theorem withWatcher (h : s.Registered v) {state : ν} (hs : v.Sound state)
    (hlive : (v.live state).Perm (v.live s.watcher)) : Registered v { s with watcher := state } :=
  ⟨hs, hlive.trans h.live, h.keys, h.numbers⟩

theorem append (h : s.Registered v) {state : ν} (hs : v.Sound state) {o : WatchSession}
    (hfree : ∀ e ∈ v.live s.watcher, e.2.same o.key = false)
    (hnew : ∀ e ∈ v.live s.watcher, e.1 ≠ o.subscription)
    (hlive : (v.live state).Perm ((o.subscription, o.key) :: v.live s.watcher)) :
    Registered v { active := s.active ++ [o], watcher := state } := by
  have hmem : ∀ p ∈ s.active, (p.subscription, p.key) ∈ v.live s.watcher :=
    fun p hp => h.live.mem_iff.mpr (List.mem_map.mpr ⟨p, hp, rfl⟩)
  refine ⟨hs, ?_, ?_, ?_⟩
  · rw [List.map_append]
    exact (hlive.trans (h.live.cons _)).trans (List.perm_append_singleton _ _).symm
  · refine List.pairwise_append.mpr ⟨h.keys, List.pairwise_singleton _ _, ?_⟩
    intro p hp q hq
    rw [List.mem_singleton.mp hq]
    exact hfree _ (hmem p hp)
  · rw [List.map_append, List.nodup_append]
    refine ⟨h.numbers, List.nodup_singleton _, ?_⟩
    intro m hm m' hm' heq
    obtain ⟨p, hp, rfl⟩ := List.mem_map.mp hm
    exact hnew _ (hmem p hp) (heq.trans (List.mem_singleton.mp hm'))

theorem start (h : s.Registered v) (w : ω) (key : Path) (request : CompileRequest) :
    (s.start watcher w key request).2.Registered v ∧
      Starts watcher v w key s (s.start watcher w key request).1
        (s.start watcher w key request).2 := by
  obtain ⟨hreplaced, -, hclosed⟩ := h.close key
  have hfree := h.free_of_close key
  have hfind := h.find?_of_close key
  have hself : key.same key = true := Path.same_refl key
  obtain ⟨replaced, s₁, hc⟩ : ∃ replaced s₁, s.close watcher key = (replaced, s₁) := ⟨_, _, rfl⟩
  unfold Sessions.start
  rw [hc] at hreplaced hclosed hfree hfind ⊢
  have hnone : s₁.find? key = none := (hfind key).trans (if_pos hself)
  have hothers : ∀ other, other.same key = false → s₁.find? other = s.find? other :=
    fun other hother => (hfind other).trans (if_neg (by simp [hother]))
  cases hsub : watcher.subscribe w key s₁.watcher with
  | mk result state =>
      have hresult : (watcher.subscribe w key (s.close watcher key).2.watcher).1 = result := by
        rw [hc, hsub]
      cases result with
      | error reason =>
          obtain ⟨hsound, hlive⟩ := v.subscribe_error hclosed.sound hfree hsub
          have h' := hclosed.withWatcher hsound hlive
          simp only [hsub]
          refine ⟨h', .failed hresult hnone ?_ (h.sameBeside h' hothers)⟩
          rw [h'.liveOn_eq]
          exact congrArg (fun o : Option WatchSession => (o.map (·.subscription)).toList) hnone
      | ok n =>
          obtain ⟨hsound, hnew, hlive⟩ := v.subscribe_ok hclosed.sound hfree hsub
          let o : WatchSession := ⟨key, request, n⟩
          have h' := hclosed.append (o := o) hsound hfree hnew hlive
          have hkey : (s₁.active ++ [o]).find? (·.key.same key) = some o := by
            have hnone : s₁.active.find? (·.key.same key) = none := hnone
            rw [find?_append, hnone, if_pos hself, Option.none_or]
          simp only [hsub]
          have hreplaced : replaced = (s.find? key).isSome := hreplaced
          rw [hreplaced]
          refine ⟨h', .started hresult (congrArg (·.map (·.subscription)) hkey) ?_
            (h.sameBeside h' fun other hother => ?_)⟩
          · rw [h'.liveOn_eq]
            exact congrArg (fun o : Option WatchSession => (o.map (·.subscription)).toList) hkey
          · have hne : key.same other = false := by rwa [Path.same_comm]
            rw [← hothers other hother]
            unfold find?
            rw [find?_append, if_neg (Bool.eq_false_iff.mp hne), Option.or_none]

theorem stopAll (h : s.Registered v) :
    (s.stopAll watcher).2.Registered v ∧ v.live (s.stopAll watcher).2.watcher = [] := by
  obtain ⟨hsound, hlive⟩ := v.unsubscribeAll (s.active.map (·.subscription)) h.sound
  -- Whatever is open belongs to a session, so that it is closed.
  have hclosed : (v.live s.watcher).filter (·.1 ∉ s.active.map (·.subscription)) = [] := by
    refine List.filter_eq_nil_iff.mpr fun e he => ?_
    obtain ⟨o, ho, rfl⟩ := List.mem_map.mp (h.live.mem_iff.mp he)
    simpa using ⟨o, ho, rfl⟩
  rw [hclosed, List.foldl_map] at hlive
  rw [List.foldl_map] at hsound
  exact ⟨.nil hsound hlive.eq_nil, hlive.eq_nil⟩

end Registered

/-! ## Remembered states -/

/-- The sessions without the states that their watcher remembers. -/
def unlogged (s : Sessions (ν × List ν)) : Sessions ν :=
  { active := s.active, watcher := s.watcher.1 }

theorem unlogged_close (watcher : Watcher ω ν) (key : Path) (s : Sessions (ν × List ν)) :
    s.unlogged.close watcher key =
      ((s.close watcher.logged key).1, (s.close watcher.logged key).2.unlogged) := by
  have hfind : s.unlogged.find? key = s.find? key := rfl
  unfold close
  rw [hfind]
  cases s.find? key <;> rfl

theorem unlogged_start (watcher : Watcher ω ν) (w : ω) (key : Path) (request : CompileRequest)
    (s : Sessions (ν × List ν)) :
    (s.unlogged.start watcher w key request).2 =
      (s.start watcher.logged w key request).2.unlogged := by
  unfold start
  rw [unlogged_close]
  obtain ⟨replaced, s₁, hc⟩ :
    ∃ replaced s₁, s.close watcher.logged key = (replaced, s₁) := ⟨_, _, rfl⟩
  rw [hc]
  have hlogged : watcher.logged.subscribe w key s₁.watcher =
      ((watcher.subscribe w key s₁.watcher.1).1, (watcher.subscribe w key s₁.watcher.1).2,
        s₁.watcher.2 ++ [(watcher.subscribe w key s₁.watcher.1).2]) := rfl
  have hunlogged : s₁.unlogged.watcher = s₁.watcher.1 := rfl
  simp only [hlogged, hunlogged]
  cases watcher.subscribe w key s₁.watcher.1 with
  | mk result state => cases result <;> rfl

theorem unlogged_stopAll (watcher : Watcher ω ν) (s : Sessions (ν × List ν)) :
    (s.unlogged.stopAll watcher).2 = (s.stopAll watcher.logged).2.unlogged := by
  have hfold : ∀ (active : List WatchSession) (state : ν × List ν),
      active.foldl (fun state o => watcher.unsubscribe o.subscription state) state.1 =
        (active.foldl (fun state o => watcher.logged.unsubscribe o.subscription state) state).1 := by
    intro active
    induction active with
    | nil => exact fun _ => rfl
    | cons o active ih => exact fun state => ih (watcher.logged.unsubscribe o.subscription state)
  unfold stopAll unlogged
  rw [hfold]

/-! ## Runs -/

variable [FileSystem ω]

/-- The key that a request has watched, or why the watcher is not asked at all. -/
def watchKey (inRuntime : Bool) (w : ω) (r : CompileRequest) : Except Failure Path :=
  match r.filePath with
  | none => .error (.invalidRequest .watchNeedsFile)
  | some p =>
    if !FileSystem.isFile w p then .error (.sourceNotFound p)
    else if !inRuntime then .error (.watch noRuntime)
    else .ok ((FileSystem.host w).key p)

theorem watch_eq (watcher : Watcher ω ν) (inRuntime : Bool) (w : ω) (r : CompileRequest)
    (s : Sessions ν) :
    s.watch watcher inRuntime w r = match watchKey inRuntime w r with
      | .error failure => (.error failure, s)
      | .ok key => s.start watcher w key { r with filePath := some key, watch := false } := by
  unfold watch watchKey
  cases r.filePath with
  | none => rfl
  | some p =>
      dsimp only
      cases FileSystem.isFile w p
      · rfl
      · cases inRuntime <;> rfl

/-- The sessions after an operation in a state of the world. -/
def apply (watcher : Watcher ω ν) (w : ω) (s : Sessions ν) : Op → Sessions ν
  | .watch inRuntime r => (s.watch watcher inRuntime w r).2
  | .stop p => (s.stop watcher w p).2
  | .stopAll | .drop => (s.stopAll watcher).2

/-- The sessions after operations. Between them the world may change. -/
def run (watcher : Watcher ω ν) (s : Sessions ν) (ops : List (ω × Op)) : Sessions ν :=
  ops.foldl (fun s o => s.apply watcher o.1 o.2) s

section

variable {watcher : Watcher ω ν} {v : watcher.View} {s : Sessions ν}

theorem Registered.apply (h : s.Registered v) (w : ω) (op : Op) :
    (s.apply watcher w op).Registered v := by
  cases op with
  | watch inRuntime r =>
      show (s.watch watcher inRuntime w r).2.Registered v
      rw [watch_eq]
      split
      · exact h
      · exact (h.start w _ _).1
  | stop p => exact (h.close _).2.2
  | stopAll | drop => exact h.stopAll.1

theorem Registered.run (h : s.Registered v) (ops : List (ω × Op)) :
    (s.run watcher ops).Registered v := by
  induction ops generalizing s with
  | nil => exact h
  | cons o ops ih => exact ih (h.apply o.1 o.2)

end

/-- A watcher that remembers its states does what it did without. -/
theorem unlogged_run (watcher : Watcher ω ν) (s : Sessions (ν × List ν)) (ops : List (ω × Op)) :
    s.unlogged.run watcher ops = (s.run watcher.logged ops).unlogged := by
  induction ops generalizing s with
  | nil => rfl
  | cons o ops ih =>
      have hstep : s.unlogged.apply watcher o.1 o.2 =
          (s.apply watcher.logged o.1 o.2).unlogged := by
        cases o.2 with
        | watch inRuntime r =>
            show (s.unlogged.watch watcher inRuntime o.1 r).2 = _
            rw [watch_eq]
            show _ = (s.watch watcher.logged inRuntime o.1 r).2.unlogged
            rw [watch_eq]
            cases watchKey inRuntime o.1 r with
            | error failure => rfl
            | ok key => exact unlogged_start watcher o.1 key _ s
        | stop p => exact congrArg Prod.snd (unlogged_close watcher _ s)
        | stopAll | drop => exact unlogged_stopAll watcher s
      unfold run
      rw [List.foldl_cons, List.foldl_cons, hstep]
      exact ih _

end Sessions

open Sessions in
/-- After any operations on sessions that were opened with an idle watcher, the open subscriptions to a
key are that of its session, if it has one, and at no moment there were two. A request to watch that
does not come to the watcher changes nothing; one that does closes the session of its key and tells so,
and leaves the key with a new session or, where the watcher fails, with none. Stopping tells what was
there and leaves nothing of it. Other keys stay as they are. -/
theorem sessions_have_one_subscription_each {ω ν : Type} [FileSystem ω] {watcher : Watcher ω ν}
    (v : watcher.View) {state : ν} (hstate : v.Sound state) (hidle : v.live state = [])
    (ops : List (ω × Op)) :
    let s := Sessions.run watcher { watcher := state } ops
    let logged := Sessions.run watcher.logged { watcher := (state, [state]) } ops
    (∀ key, v.liveOn s.watcher key = ((s.find? key).map (·.subscription)).toList) ∧
      (logged.unlogged = s ∧ ∀ moment ∈ logged.watcher.2, ∀ key, (v.liveOn moment key).length ≤ 1) ∧
      (∀ inRuntime w r, match watchKey inRuntime w r with
        | .error failure => s.watch watcher inRuntime w r = (.error failure, s)
        | .ok key => Registered.Starts watcher v w key s (s.watch watcher inRuntime w r).1
            (s.watch watcher inRuntime w r).2) ∧
      (∀ w p, let key := (FileSystem.host w).key p
        ∃ s', s.stop watcher w p = ((s.find? key).isSome, s') ∧ s'.find? key = none ∧
          v.liveOn s'.watcher key = [] ∧ SameBeside v key s s') ∧
      ∃ s', s.stopAll watcher = (s.active.length, s') ∧ s'.active = [] ∧ v.live s'.watcher = [] ∧
        (s'.stopAll watcher).1 = 0 := by
  intro s logged
  have h : s.Registered v := (Registered.nil hstate hidle).run ops
  refine ⟨h.liveOn_eq, ⟨(unlogged_run watcher { watcher := (state, [state]) } ops).symm, ?_⟩, ?_, ?_, ?_⟩
  · have hempty : v.IsExclusive state := by
      unfold Watcher.View.IsExclusive
      rw [hidle]
      exact .nil
    have hsound : v.logged.Sound (state, [state]) :=
      ⟨hstate, hempty, fun m hm => List.mem_singleton.mp hm ▸ hempty⟩
    have hlogged : logged.Registered v.logged := (Registered.nil hsound hidle).run ops
    intro moment hmoment key
    exact (hlogged.sound.2.2 moment hmoment).length_liveOn_le key
  · intro inRuntime w r
    rw [watch_eq]
    cases watchKey inRuntime w r with
    | error failure => rfl
    | ok key => exact (h.start w key _).2
  · intro w p key
    obtain ⟨hanswer, -, hclosed⟩ := h.close key
    have hfind := h.find?_of_close key
    have hnone := (hfind key).trans (if_pos (Path.same_refl key))
    refine ⟨_, Prod.ext hanswer rfl, hnone, ?_, h.sameBeside hclosed fun other hother => ?_⟩
    · exact (hclosed.liveOn_eq key).trans (by rw [hnone]; rfl)
    · exact (hfind other).trans (if_neg (Bool.eq_false_iff.mp hother))
  · exact ⟨_, rfl, rfl, h.stopAll.2, rfl⟩

/-- Of two files one is watched again after its first watch failed, and the other one is stopped. -/
theorem sessions_have_one_subscription_each_of_rewatched :
    let a : Path := ⟨"/a.ts"⟩
    let b : Path := ⟨"/b.ts"⟩
    let w : Rehearsal := { memory := { files := [(a, ""), (b, "")] } }
    let recording : Watcher Rehearsal Recording := .recording
    let v : recording.View := Watcher.recordingView
    let idle : Recording := { failsNext := true }
    let ops : List (Rehearsal × Sessions.Op) :=
      [(w, .watch true { filePath := some a }), (w, .watch true { filePath := some a }),
        (w, .watch true { filePath := some b }), (w, .watch true { filePath := some a }),
        (w, .watch true {}), (w, .stop b)]
    let s := Sessions.run recording { watcher := idle } ops
    v.Sound idle ∧ v.live idle = [] ∧
      v.liveOn s.watcher a = [2] ∧ v.liveOn s.watcher b = [] ∧
      (∃ s', s.stop recording w a = (true, s') ∧ v.liveOn s'.watcher a = []) ∧
      ∃ s', s.stopAll recording = (1, s') ∧ v.live s'.watcher = [] := by
  intro a b w recording v idle ops s
  have hsound : v.Sound idle := fun e he => nomatch he
  obtain ⟨hlive, -, -, hstop, hall⟩ := sessions_have_one_subscription_each v hsound rfl ops
  have hfinds : (s.find? a).map (·.subscription) = some 2 ∧ s.find? b = none ∧
      s.active.length = 1 := by decide +kernel
  obtain ⟨ha, hb, hlength⟩ := hfinds
  have hkey : (FileSystem.host w).key a = a := by decide +kernel
  refine ⟨hsound, rfl, (hlive a).trans (by rw [ha]; rfl), (hlive b).trans (by rw [hb]; rfl), ?_, ?_⟩
  · obtain ⟨s', hs', -, hnone, -⟩ := hstop w a
    have hopen : (s.find? a).isSome = true := by rw [← Option.isSome_map, ha]; rfl
    rw [hkey] at hs' hnone
    exact ⟨s', hs'.trans (by rw [hopen]), hnone⟩
  · obtain ⟨s', hs', -, hnone, -⟩ := hall
    exact ⟨s', hs'.trans (by rw [hlength]), hnone⟩

end ScriptWorks

import Mathlib.Logic.Relation
import ScriptWorks.Proofs.Schedule.Tracking

/-!
# Fresh output

A watched file is edited, its session hears of each edit some time later and asks for a compilation, and
others ask for compilations of their own. Once the session has heard of all edits and its calls are done,
nothing of an older text is left where the script stands: what is read under the lock is written under
the lock, so the last to write is one who read the last text.
-/

namespace ScriptWorks

theorem eq_or_getElem?_of_set {α : Type} {l : List α} {m n : Nat} {a b : α}
    (h : (l.set n a)[m]? = some b) : m = n ∧ b = a ∨ m ≠ n ∧ l[m]? = some b := by
  by_cases hmn : m = n
  · subst hmn
    rw [List.getElem?_set] at h
    split at h
    · split at h
      · exact .inl ⟨rfl, (Option.some.inj h).symm⟩
      · cases h
    · exact absurd rfl ‹_›
  · rw [List.getElem?_set_ne (Ne.symm hmn)] at h
    exact .inr ⟨hmn, h⟩

namespace Call.Standing

variable {calls : List Call.Standing} {n m : Nat}

/-- A call of the session that has still to read the file. -/
def IsAhead (c : Call.Standing) : Prop :=
  c.ofSession = true ∧ (c.stage = .waiting ∨ c.stage = .started)

/-- The session has still to read the file. -/
def Due (calls : List Call.Standing) : Prop := ∃ n : Nat, ∃ c, calls[n]? = some c ∧ c.IsAhead

theorem Due.append (h : Due calls) (more : List Call.Standing) : Due (calls ++ more) := by
  obtain ⟨n, c, hn, hc⟩ := h
  refine ⟨n, c, ?_, hc⟩
  rw [List.getElem?_append_left (List.getElem?_eq_some_iff.mp hn).1, hn]

theorem Due.of_append (calls : List Call.Standing) : Due (calls ++ [⟨true, .waiting⟩]) :=
  ⟨calls.length, _, List.getElem?_concat_length, rfl, .inl rfl⟩

theorem Due.set {c : Call.Standing} (hm : calls[m]? = some c) (hc : c.IsAhead) (hne : m ≠ n)
    (other : Call.Standing) : Due (calls.set n other) :=
  ⟨m, c, by rwa [List.getElem?_set_ne (Ne.symm hne)], hc⟩

theorem Alone.eq_of_prepared (h : Alone calls n) {b : Bool} {draft : Except Failure Draft}
    (hm : calls[m]? = some ⟨b, .prepared draft⟩) : m = n := by
  by_cases hne : m = n
  · exact hne
  · rcases h m _ hm hne with hstage | ⟨_, hstage⟩ <;> cases hstage

end Call.Standing

open Call.Standing LawfulFileSystem

namespace WatchedFile

variable {ω π ν : Type} [FileSystem ω] [LawfulFileSystem ω]
variable {e : Engine ω π} {f : WatchedFile ω} {w w' : ω} {calls calls' : List Call.Standing}

theorem Shows.of_contentAt_eq {text : String} (h : f.Shows e text w)
    (hsame : contentAt w' f.output = contentAt w f.output) : f.Shows e text w' := by
  cases h with
  | script ht hcode hheld => exact .script ht hcode (hsame.trans hheld)
  | map ht hcode hon hmap hw hscript hplace hheld =>
      exact .map ht hcode hon hmap hw hscript hplace (hsame.trans hheld)

/-- The place of the script shows the text that the file has. -/
def IsShown (e : Engine ω π) (f : WatchedFile ω) (w : ω) : Prop :=
  ∃ text, f.source w = .ok text ∧ f.Shows e text w

theorem IsShown.of_contentAt_eq (h : f.IsShown e w) (hsource : f.source w' = f.source w)
    (hsame : contentAt w' f.output = contentAt w f.output) : f.IsShown e w' := by
  obtain ⟨text, htext, hshows⟩ := h
  exact ⟨text, hsource.trans htext, hshows.of_contentAt_eq hsame⟩

/-- The draft is one of the text that the file has; the session's is one under its own path. -/
def IsFresh (e : Engine ω π) (f : WatchedFile ω) (w : ω) (ofSession : Bool)
    (draft : Except Failure Draft) : Prop :=
  ∃ q text d, draft = .ok d ∧ f.source w = .ok text ∧ f.IsDraft e q text d ∧
    (ofSession = true → q = f.path)

/-- All drafts are fresh, and the place of the script shows the text of the file or a call of the session
is going to write it. -/
structure Settled (e : Engine ω π) (f : WatchedFile ω) (calls : List Call.Standing) (w : ω) :
    Prop where
  fresh : ∀ (n : Nat) ofSession draft, calls[n]? = some ⟨ofSession, .prepared draft⟩ →
    f.IsFresh e w ofSession draft
  shown : f.IsShown e w ∨ ∃ n : Nat, ∃ draft, calls[n]? = some ⟨true, .prepared draft⟩

theorem Settled.of_prepared {n : Nat} {b : Bool} {draft : Except Failure Draft}
    (halone : Alone calls n) (hfresh : f.IsFresh e w b draft)
    (hshown : f.IsShown e w ∨ b = true ∧ n < calls.length) :
    f.Settled e (calls.set n ⟨b, .prepared draft⟩) w where
  fresh := by
    intro m ofSession other hm
    rcases eq_or_getElem?_of_set hm with ⟨-, heq⟩ | ⟨hne, hm⟩
    · cases heq
      exact hfresh
    · exact absurd (halone.eq_of_prepared hm) hne
  shown := by
    refine hshown.imp_right ?_
    rintro ⟨rfl, hn⟩
    exact ⟨n, draft, List.getElem?_set_self hn⟩

theorem Settled.of_finished {n : Nat} {b : Bool} {result : Except Failure Compilation}
    (halone : Alone calls n) (hshown : f.IsShown e w) :
    f.Settled e (calls.set n ⟨b, .finished result⟩) w where
  fresh := by
    intro m ofSession other hm
    rcases eq_or_getElem?_of_set hm with ⟨-, heq⟩ | ⟨hne, hm⟩
    · cases heq
    · exact absurd (halone.eq_of_prepared hm) hne
  shown := .inl hshown

theorem Settled.congr (h : f.Settled e calls w)
    (hsame : ∀ (n : Nat) b draft, calls'[n]? = some ⟨b, .prepared draft⟩ ↔
      calls[n]? = some ⟨b, .prepared draft⟩) : f.Settled e calls' w where
  fresh n b draft hn := h.fresh n b draft ((hsame n b draft).mp hn)
  shown := h.shown.imp_right fun ⟨n, draft, hn⟩ => ⟨n, draft, (hsame n true draft).mpr hn⟩

namespace Advance

variable {v v' : List Call.Standing × ω}

/-- The session has still to read the file, unless it reads it in this step; then its draft is fresh. -/
theorem due (h : f.Advance e v v') (hsource : f.source v'.2 = f.source v.2) (hdue : Due v.1) :
    Due v'.1 ∨ f.Settled e v'.1 v'.2 := by
  obtain ⟨m, c, hm, hc⟩ := hdue
  cases h with
  | still => exact .inl ⟨m, c, hm, hc⟩
  | ask ofSession => exact .inl (Due.append ⟨m, c, hm, hc⟩ _)
  | @start calls w n ofSession hn =>
      by_cases hne : m = n
      · subst hne
        rw [hn] at hm
        cases hm
        have hlt := (List.getElem?_eq_some_iff.mp hn).1
        exact .inl ⟨m, ⟨ofSession, .started⟩, List.getElem?_set_self hlt, hc.1, .inr rfl⟩
      · exact .inl (Due.set hm hc hne _)
  | @prepare calls w w' n ofSession q text d hn halone htext hdraft hpath hsame =>
      by_cases hne : m = n
      · subst hne
        rw [hn] at hm
        cases hm
        have hlt := (List.getElem?_eq_some_iff.mp hn).1
        have hfresh : f.IsFresh e w' ofSession (.ok d) :=
          ⟨q, text, d, rfl, hsource.trans htext, hdraft, hpath⟩
        exact .inr (.of_prepared halone hfresh (.inr ⟨hc.1, hlt⟩))
      · exact .inl (Due.set hm hc hne _)
  | @commit calls w n ofSession d hn =>
      have hne : m ≠ n := by
        rintro rfl
        rw [hn] at hm
        cases hm
        rcases hc.2 with hstage | hstage <;> cases hstage
      exact .inl (Due.set hm hc hne _)

/-- Who writes a draft writes the text of the file. Who reads the file has no draft of the session beside
them, so that the text which they find is shown already. -/
theorem settled (h : f.Advance e v v') (hw : f.Stable e v.2)
    (hsource : f.source v'.2 = f.source v.2) (hsettled : f.Settled e v.1 v.2) :
    f.Settled e v'.1 v'.2 := by
  cases h with
  | still => exact hsettled
  | ask ofSession =>
      refine hsettled.congr fun m b draft => ?_
      grind
  | @start calls w n ofSession hn =>
      refine hsettled.congr fun m b draft => ?_
      grind
  | @prepare calls w w' n ofSession q text d hn halone htext hdraft hpath hsame =>
      refine .of_prepared halone ⟨q, text, d, rfl, hsource.trans htext, hdraft, hpath⟩ (.inl ?_)
      rcases hsettled.shown with hshown | ⟨m, draft, hm⟩
      · exact hshown.of_contentAt_eq hsource (hsame f.output)
      · -- No draft of the session is beside a call that reads the file.
        rw [halone.eq_of_prepared hm, hn] at hm
        cases hm
  | @commit calls w n ofSession d hn halone hall =>
      obtain ⟨q, text, _, hd, htext, hdraft, hpath⟩ := hsettled.fresh n _ _ hn
      cases hd
      refine .of_finished halone ?_
      rcases hdraft.shows hw rfl hall with hshows | ⟨hkept, helsewhere⟩
      · exact ⟨text, hsource.trans htext, hshows⟩
      · rcases hsettled.shown with hshown | ⟨m, draft, hm⟩
        · exact hshown.of_contentAt_eq hsource hkept
        · -- What a call of the session writes is not elsewhere.
          rw [halone.eq_of_prepared hm, hn] at hm
          cases hm
          rw [hpath rfl] at helsewhere
          exact absurd hw.output helsewhere

end Advance

end WatchedFile

/-- A schedule of which a file is edited. For each edit a change is delivered, and for each change that was
delivered the session asks for a compilation. -/
structure Editing (ω ν : Type) where
  schedule : Schedule ω ν
  edits : Nat := 0
  delivered : Nat := 0
  /-- The changes for which the session has asked for a compilation. -/
  handled : Nat := 0

namespace Editing

variable {ω π ν : Type} [FileSystem ω] [LawfulFileSystem ω]

/-- What happens around a watched file. Edits, changes and the steps of all calls come in any order. A
step of a call that writes over the file itself is an edit. -/
inductive Move (e : Engine ω π) (watcher : Watcher ω ν) (f : WatchedFile ω) :
    Editing ω ν → Editing ω ν → Prop
  | edit {s change} : f.Stable e (change s.schedule.world) →
      Move e watcher f s
        { s with schedule := s.schedule.step e watcher (.change change), edits := s.edits + 1 }
  | deliver {s} : s.delivered < s.edits →
      Move e watcher f s { s with delivered := s.delivered + 1 }
  | handle {s} : s.handled < s.delivered →
      Move e watcher f s
        { s with
          schedule := s.schedule.step e watcher (.deliver f.session.subscription)
          handled := s.handled + 1 }
  | work {s step} : f.Permits e s.schedule step →
      f.Stable e (s.schedule.step e watcher step).world →
      f.source (s.schedule.step e watcher step).world = f.source s.schedule.world →
      Move e watcher f s { s with schedule := s.schedule.step e watcher step }
  | overwrite {s step} : f.Permits e s.schedule step →
      f.Stable e (s.schedule.step e watcher step).world →
      Move e watcher f s
        { s with schedule := s.schedule.step e watcher step, edits := s.edits + 1 }

/-- Steps of calls that may be taken one after another, none of which writes over the file. -/
inductive Works (e : Engine ω π) (watcher : Watcher ω ν) (f : WatchedFile ω) :
    Schedule ω ν → List (Schedule.Step ω) → Prop
  | nil {s} : Works e watcher f s []
  | cons {s step steps} : f.Permits e s step → f.Stable e (s.step e watcher step).world →
      f.source (s.step e watcher step).world = f.source s.world →
      Works e watcher f (s.step e watcher step) steps → Works e watcher f s (step :: steps)

theorem Works.moves {e : Engine ω π} {watcher : Watcher ω ν} {f : WatchedFile ω} {s : Schedule ω ν}
    {steps : List (Schedule.Step ω)} (h : Works e watcher f s steps) {edits delivered handled : Nat} :
    Relation.ReflTransGen (Move e watcher f) ⟨s, edits, delivered, handled⟩
      ⟨s.run e watcher steps, edits, delivered, handled⟩ := by
  induction h with
  | nil => exact .refl
  | cons hpermits hstable hsource _ ih => exact .head (.work hpermits hstable hsource) ih

/-- What every move keeps. Once the file was edited, the session has not heard of all edits, or it has
still to read the file, or there is nothing old left. -/
structure Sound (e : Engine ω π) (f : WatchedFile ω) (s : Editing ω ν) : Prop where
  guarded : s.schedule.Guarded
  tracks : s.schedule.Tracks f
  stable : f.Stable e s.schedule.world
  handled : s.handled ≤ s.delivered
  delivered : s.delivered ≤ s.edits
  current : 0 < s.edits → s.handled < s.edits ∨ Due s.schedule.view.1 ∨
    f.Settled e s.schedule.view.1 s.schedule.world

namespace Sound

variable {e : Engine ω π} {f : WatchedFile ω} {s s' : Editing ω ν}

/-- After an edit anything may be old: the session has not heard of it yet. -/
theorem edit (h : s.Sound e f) {schedule : Schedule ω ν} (hg : schedule.Guarded)
    (htracks : schedule.Tracks f) (hstable : f.Stable e schedule.world) :
    Sound e f { s with schedule, edits := s.edits + 1 } where
  guarded := hg
  tracks := htracks
  stable := hstable
  handled := h.handled
  delivered := Nat.le_succ_of_le h.delivered
  current _ := .inl (Nat.lt_succ_of_le (Nat.le_trans h.handled h.delivered))

/-- Whenever the session hears of an edit, it has to read the file. -/
theorem handle (h : s.Sound e f) (watcher : Watcher ω ν) (hdelivered : s.handled < s.delivered) :
    Sound e f { s with
      schedule := s.schedule.step e watcher (.deliver f.session.subscription)
      handled := s.handled + 1 } := by
  have henqueue : s.schedule.step e watcher (.deliver f.session.subscription) =
      s.schedule.enqueue f.session.request (.file f.path) (some f.session.key) := by
    show s.schedule.deliver f.session.subscription = _
    unfold Schedule.deliver
    rw [h.tracks.session]
    simp only [f.asksForFile]
    rfl
  have hadvances : s.schedule.Advances e f
      (s.schedule.enqueue f.session.request (.file f.path) (some f.session.key)) :=
    h.tracks.enqueue h.stable f.key_mem ⟨rfl, rfl⟩ fun _ => rfl
  rw [henqueue]
  exact
    { guarded := h.guarded.enqueue _ _ _
      tracks := hadvances.tracks
      stable := h.stable
      handled := hdelivered
      delivered := h.delivered
      current := by
        intro _
        rw [Schedule.view_enqueue]
        exact .inr (.inl (Due.of_append _)) }

theorem work (h : s.Sound e f) {schedule : Schedule ω ν} (hg : schedule.Guarded)
    (hadvances : s.schedule.Advances e f schedule) (hstable : f.Stable e schedule.world)
    (hsource : f.source schedule.world = f.source s.schedule.world) :
    Sound e f { s with schedule } where
  guarded := hg
  tracks := hadvances.tracks
  stable := hstable
  handled := h.handled
  delivered := h.delivered
  current := by
    intro hedited
    refine (h.current hedited).imp_right ?_
    rintro (hdue | hsettled)
    · exact hadvances.view.due hsource hdue
    · exact .inr (hadvances.view.settled h.stable hsource hsettled)

theorem move (h : s.Sound e f) (he : e.KeepsFiles) {watcher : Watcher ω ν}
    (hmove : Move e watcher f s s') : s'.Sound e f := by
  cases hmove with
  | edit hstable =>
      exact h.edit (h.guarded.step e watcher (.change _))
        ⟨h.tracks.gate, h.tracks.session, h.tracks.owned⟩ hstable
  | deliver hlt => exact { h with handled := Nat.le_succ_of_le h.handled, delivered := hlt }
  | handle hlt => exact h.handle watcher hlt
  | @work step hpermits hstable hsource =>
      exact h.work (h.guarded.step e watcher step)
        (h.tracks.step h.guarded he watcher h.stable hpermits) hstable hsource
  | @overwrite step hpermits hstable =>
      exact h.edit (h.guarded.step e watcher step)
        (h.tracks.step h.guarded he watcher h.stable hpermits).tracks hstable

theorem moves (h : s.Sound e f) (he : e.KeepsFiles) {watcher : Watcher ω ν}
    (hmoves : Relation.ReflTransGen (Move e watcher f) s s') : s'.Sound e f := by
  induction hmoves with
  | refl => exact h
  | tail _ hmove ih => exact ih.move he hmove

end Sound

/-- However edits, changes and the steps of all calls follow one another: once the session has heard of
all edits and its calls are done, the place of the script shows the text that the last edit left. -/
theorem output_shows_last_edit {e : Engine ω π} (he : e.KeepsFiles) (watcher : Watcher ω ν)
    (f : WatchedFile ω) {world : ω} {sessions : Sessions ν}
    (hsession : sessions.active.find? (·.subscription = f.session.subscription) = some f.session)
    (hstable : f.Stable e world) {s : Editing ω ν}
    (hmoves : Relation.ReflTransGen (Move e watcher f) { schedule := { world, sessions } } s)
    (hedited : 0 < s.edits) (hhandled : s.handled = s.edits)
    (hdone : ∀ c ∈ s.schedule.calls, c.session.isSome = true → c.result?.isSome = true) :
    ∃ text, f.source s.schedule.world = .ok text ∧ f.Shows e text s.schedule.world := by
  have hstart : Sound e f { schedule := { world, sessions } } :=
    { guarded := ⟨Gate.Orderly.empty, fun n c hc => by simp at hc⟩
      tracks := ⟨fun t ht => by simp at ht, hsession, fun c hc => by simp at hc⟩
      stable := hstable
      handled := Nat.le_refl 0
      delivered := Nat.le_refl 0
      current := fun hedited => absurd hedited (Nat.lt_irrefl 0) }
  have hfinished (n : Nat) (c : Call.Standing) (hn : s.schedule.view.1[n]? = some c)
      (hown : c.ofSession = true) : ∃ result, c.stage = .finished result := by
    unfold Schedule.view at hn
    rw [List.getElem?_map] at hn
    obtain ⟨call, hcall, rfl⟩ := Option.map_eq_some_iff.mp hn
    have hresult := hdone call (List.mem_of_getElem? hcall) hown
    unfold Call.result? at hresult
    cases hstage : call.stage with
    | finished result => exact ⟨result, hstage⟩
    | waiting | started | prepared =>
        rw [hstage] at hresult
        cases hresult
  rcases (hstart.moves he hmoves).current hedited with hlt | ⟨n, c, hn, hown, hstage⟩ | hsettled
  · exact absurd hhandled (Nat.ne_of_lt hlt)
  · obtain ⟨result, hresult⟩ := hfinished n c hn hown
    rcases hstage with hstage | hstage <;>
    · rw [hresult] at hstage
      cases hstage
  · rcases hsettled.shown with hshown | ⟨n, draft, hn⟩
    · exact hshown
    · obtain ⟨result, hresult⟩ := hfinished n _ hn rfl
      cases hresult

/-- Somebody who read the old text writes its script after the edit; then the session's call gets the
lock. -/
theorem output_shows_last_edit_of_overtaken :
    let p : Path := ⟨"/v/a.ts"⟩
    let e := Engine.scripted [] []
    let f := WatchedFile.inMemory p 0
    let opened : Schedule Rehearsal DirectoryWatch :=
      { world := { memory := { files := [(p, "old")] } }
        sessions := { active := [f.session], watcher := {} } }
    let asked := opened.run e .directories
      [.ask (.ofFile p) (.file p), .grant 0, .start 0, .prepare 0]
    let edited := asked.step e .directories
      (.change fun w => { w with memory := w.memory.insert p "new" })
    let heard := edited.step e .directories (.deliver 0)
    let settled := heard.run e .directories
      [.commit 0, .release 0, .grant 1, .start 1, .prepare 1, .commit 1]
    (heard.step e .directories (.commit 0)).world.memory.get? ⟨"/v/a.js"⟩ =
        some "// compiled\nold" ∧
      settled.world.memory.get? ⟨"/v/a.js"⟩ = some "// compiled\nnew" ∧
      ∃ text, f.source settled.world = .ok text ∧ f.Shows e text settled.world := by
  intro p e f opened asked edited heard settled
  have hstable (w : Rehearsal)
      (hw : ((FileSystem.host w).key p).same p ∧ (e.findConfig w p).isNone) : f.Stable e w :=
    WatchedFile.stable_inMemory 0 hw.1 (Option.isNone_iff_eq_none.mp hw.2)
  have hopened : f.Stable e opened.world := hstable _ (by decide +kernel)
  have hedited : f.Stable e edited.world := hstable _ (by decide +kernel)
  have hcons {s : Schedule Rehearsal DirectoryWatch} {step : Schedule.Step Rehearsal}
      {steps : List (Schedule.Step Rehearsal)} (hpermits : f.Permits e s step)
      (hw : let w := (s.step e .directories step).world
        (((FileSystem.host w).key p).same p ∧ (e.findConfig w p).isNone) ∧
          f.source w = f.source s.world)
      (hrest : Works e .directories f (s.step e .directories step) steps) :
      Works e .directories f s (step :: steps) :=
    .cons hpermits (hstable _ hw.1) hw.2 hrest
  have hasked : Works e .directories f opened
      [.ask (.ofFile p) (.file p), .grant 0, .start 0, .prepare 0] :=
    .cons (.ask (.head _) ⟨rfl, rfl⟩) hopened rfl
      (.cons (.grant 0) hopened rfl
        (hcons (.start 0) (by decide +kernel)
          (hcons (.prepare (by decide +kernel)) (by decide +kernel) .nil)))
  have hworks : Works e .directories f heard
      [.commit 0, .release 0, .grant 1, .start 1, .prepare 1, .commit 1] :=
    hcons (.commit (by decide +kernel)) (by decide +kernel)
      (hcons (.release 0) (by decide +kernel)
        (hcons (.grant 1) (by decide +kernel)
          (hcons (.start 1) (by decide +kernel)
            (hcons (.prepare (by decide +kernel)) (by decide +kernel)
              (hcons (.commit (by decide +kernel)) (by decide +kernel) .nil)))))
  have hheard : Relation.ReflTransGen (Move e .directories f) ⟨asked, 0, 0, 0⟩ ⟨heard, 1, 1, 1⟩ :=
    .head (.edit hedited) (.head (.deliver Nat.one_pos) (.single (.handle Nat.one_pos)))
  have hshown := output_shows_last_edit (Engine.scripted_keepsFiles [] []) .directories f rfl hopened
    ((hasked.moves.trans hheard).trans hworks.moves) Nat.one_pos rfl (by decide +kernel)
  exact ⟨by decide +kernel, by decide +kernel, hshown⟩

end Editing

end ScriptWorks

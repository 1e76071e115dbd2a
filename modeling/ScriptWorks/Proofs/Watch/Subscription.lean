import ScriptWorks.Proofs.Gate.Exclusion
import ScriptWorks.Watch.Watcher

/-!
# Open subscriptions

What is asked of a watcher: it opens one subscription or fails, and closing a subscription leaves all
others open. Nothing is asked of a watcher that is to watch a path which it watches already.
-/

namespace ScriptWorks

namespace Watcher

variable {ω ν : Type}

/-- The open subscriptions of a watcher, with what they watch, in all states that it may be in. -/
structure View (watcher : Watcher ω ν) where
  live : ν → List (Nat × Path)
  Sound : ν → Prop
  subscribe_ok {w : ω} {p : Path} {n : Nat} {s s' : ν} :
    Sound s → (∀ e ∈ live s, e.2.same p = false) → watcher.subscribe w p s = (.ok n, s') →
      Sound s' ∧ (∀ e ∈ live s, e.1 ≠ n) ∧ (live s').Perm ((n, p) :: live s)
  subscribe_error {w : ω} {p : Path} {reason : String} {s s' : ν} :
    Sound s → (∀ e ∈ live s, e.2.same p = false) → watcher.subscribe w p s = (.error reason, s') →
      Sound s' ∧ (live s').Perm (live s)
  unsubscribe {s : ν} (n : Nat) :
    Sound s → Sound (watcher.unsubscribe n s) ∧
      (live (watcher.unsubscribe n s)).Perm ((live s).filter (·.1 ≠ n))

/-- The open subscriptions to a path. -/
def View.liveOn {watcher : Watcher ω ν} (v : watcher.View) (s : ν) (p : Path) : List Nat :=
  ((v.live s).filter (·.2.same p)).map (·.1)

theorem View.unsubscribeAll {watcher : Watcher ω ν} (v : watcher.View) (ns : List Nat) {s : ν}
    (hs : v.Sound s) :
    v.Sound (ns.foldl (fun s n => watcher.unsubscribe n s) s) ∧
      (v.live (ns.foldl (fun s n => watcher.unsubscribe n s) s)).Perm
        ((v.live s).filter (·.1 ∉ ns)) := by
  induction ns generalizing s with
  | nil => exact ⟨hs, by simp⟩
  | cons n ns ih =>
      obtain ⟨hs', hlive⟩ := v.unsubscribe n hs
      obtain ⟨hsound, hrest⟩ := ih hs'
      refine ⟨hsound, hrest.trans ?_⟩
      have hperm := hlive.filter (·.1 ∉ ns)
      rw [List.filter_filter] at hperm
      simpa [Bool.and_comm] using hperm

/-! ## Kinds of watchers -/

/-- The numbers of open subscriptions were given away before. -/
def Numbered (opened : Nat) (live : List (Nat × Path)) : Prop := ∀ e ∈ live, e.1 < opened

theorem Numbered.append {opened : Nat} {live : List (Nat × Path)} (h : Numbered opened live)
    (p : Path) : Numbered (opened + 1) (live ++ [(opened, p)]) := by
  intro e he
  rcases List.mem_append.mp he with he | he
  · exact Nat.lt_succ_of_lt (h e he)
  · rw [List.mem_singleton.mp he]
    exact Nat.lt_succ_self opened

theorem Numbered.filter {opened : Nat} {live : List (Nat × Path)} (h : Numbered opened live)
    (keep : Nat × Path → Bool) : Numbered opened (live.filter keep) :=
  fun e he => h e (List.mem_of_mem_filter he)

/-- The subscriptions to the directories of files. -/
def directoriesView [FileSystem ω] : View (directories (ω := ω)) where
  live := DirectoryWatch.live
  Sound s := Numbered s.opened s.live
  subscribe_ok := by
    intro w p n s s' hs _ h
    have h : DirectoryWatch.subscribe (FileSystem.host w) p s = (.ok n, s') := h
    unfold DirectoryWatch.subscribe at h
    dsimp only at h
    split at h
    · cases h
    · cases h
      exact ⟨hs.append p, fun e he => Nat.ne_of_lt (hs e he), List.perm_append_singleton _ _⟩
  subscribe_error := by
    intro w p reason s s' hs _ h
    have h : DirectoryWatch.subscribe (FileSystem.host w) p s = (.error reason, s') := h
    unfold DirectoryWatch.subscribe at h
    dsimp only at h
    split at h
    · cases h
      exact ⟨hs, .refl _⟩
    · cases h
  unsubscribe n hs := ⟨hs.filter _, .refl _⟩

/-- The subscriptions that are recorded. -/
def recordingView : View (recording (ω := ω)) where
  live := Recording.live
  Sound s := Numbered s.opened s.live
  subscribe_ok := by
    intro w p n s s' hs _ h
    have h : Recording.subscribe p s = (.ok n, s') := h
    unfold Recording.subscribe at h
    split at h
    · cases h
    · cases h
      exact ⟨hs.append p, fun e he => Nat.ne_of_lt (hs e he), List.perm_append_singleton _ _⟩
  subscribe_error := by
    intro w p reason s s' hs _ h
    have h : Recording.subscribe p s = (.error reason, s') := h
    unfold Recording.subscribe at h
    split at h
    · cases h
      exact ⟨hs, .refl _⟩
    · cases h
  unsubscribe {s} n hs := by
    show Numbered (s.unsubscribe n).opened (s.unsubscribe n).live ∧
      (s.unsubscribe n).live.Perm (s.live.filter (·.1 ≠ n))
    unfold Recording.unsubscribe
    split
    case h_1 hnone =>
      have hall : s.live.filter (·.1 ≠ n) = s.live :=
        List.filter_eq_self.mpr fun e he => by simpa using List.find?_eq_none.mp hnone e he
      rw [hall]
      exact ⟨hs, .refl _⟩
    case h_2 => exact ⟨hs.filter _, .refl _⟩

/-! ## States that a watcher goes through -/

/-- The watcher that remembers all its states, latest last. -/
def logged (watcher : Watcher ω ν) : Watcher ω (ν × List ν) where
  subscribe w p s :=
    let (result, state) := watcher.subscribe w p s.1
    (result, state, s.2 ++ [state])
  unsubscribe n s :=
    let state := watcher.unsubscribe n s.1
    (state, s.2 ++ [state])

/-- There is one open subscription to each path at most. -/
def View.IsExclusive {watcher : Watcher ω ν} (v : watcher.View) (s : ν) : Prop :=
  (v.live s).Pairwise fun d e => d.2.same e.2 = false

namespace View

variable {watcher : Watcher ω ν} {v : watcher.View} {s s' : ν}

private theorem same_symm {d e : Nat × Path} (h : d.2.same e.2 = false) : e.2.same d.2 = false := by
  rwa [Path.same_comm]

theorem IsExclusive.perm (h : v.IsExclusive s) (hp : (v.live s').Perm (v.live s)) :
    v.IsExclusive s' := hp.symm.pairwise h same_symm

theorem IsExclusive.cons (h : v.IsExclusive s) {n : Nat} {p : Path}
    (hfree : ∀ e ∈ v.live s, e.2.same p = false) (hp : (v.live s').Perm ((n, p) :: v.live s)) :
    v.IsExclusive s' := by
  refine hp.symm.pairwise (.cons (fun e he => ?_) h) same_symm
  rw [Path.same_comm]
  exact hfree e he

theorem IsExclusive.filter (h : v.IsExclusive s) {keep : Nat × Path → Bool}
    (hp : (v.live s').Perm ((v.live s).filter keep)) : v.IsExclusive s' :=
  hp.symm.pairwise (List.Pairwise.filter _ h) same_symm

theorem IsExclusive.length_liveOn_le (h : v.IsExclusive s) (p : Path) :
    (v.liveOn s p).length ≤ 1 := by
  unfold liveOn
  rw [List.length_map]
  cases hlive : (v.live s).filter (·.2.same p) with
  | nil => exact Nat.zero_le 1
  | cons d rest =>
      cases rest with
      | nil => exact Nat.le_refl 1
      | cons e rest =>
          -- Two subscriptions to one path are to paths that are not the same.
          have hpair : ((v.live s).filter (·.2.same p)).Pairwise fun d e => d.2.same e.2 = false :=
            List.Pairwise.filter _ h
          have hmem : ∀ a ∈ (v.live s).filter (·.2.same p), a.2.same p = true :=
            fun a ha => (List.mem_filter.mp ha).2
          rw [hlive] at hpair hmem
          have hd := hmem d List.mem_cons_self
          have he := hmem e (List.mem_cons_of_mem d List.mem_cons_self)
          have hne := List.rel_of_pairwise_cons hpair List.mem_cons_self
          rw [Path.same_comm, Path.same_left hd, he] at hne
          cases hne

/-- What a watcher does is seen in the same way when its states are remembered, and as long as no
path is watched twice, there was no state with two subscriptions to a path. -/
def logged (v : watcher.View) : watcher.logged.View where
  live s := v.live s.1
  Sound s := v.Sound s.1 ∧ v.IsExclusive s.1 ∧ ∀ state ∈ s.2, v.IsExclusive state
  subscribe_ok := by
    rintro w p n ⟨s, log⟩ ⟨s', log'⟩ ⟨hs, hexclusive, hlog⟩ hfree h
    rw [Watcher.logged, Prod.mk.injEq, Prod.mk.injEq] at h
    obtain ⟨hresult, rfl, rfl⟩ := h
    obtain ⟨hs', hnew, hp⟩ := v.subscribe_ok hs hfree (Prod.ext hresult rfl)
    have hexclusive' := hexclusive.cons hfree hp
    refine ⟨⟨hs', hexclusive', fun state hstate => ?_⟩, hnew, hp⟩
    rcases List.mem_append.mp hstate with hstate | hstate
    · exact hlog state hstate
    · exact List.mem_singleton.mp hstate ▸ hexclusive'
  subscribe_error := by
    rintro w p reason ⟨s, log⟩ ⟨s', log'⟩ ⟨hs, hexclusive, hlog⟩ hfree h
    rw [Watcher.logged, Prod.mk.injEq, Prod.mk.injEq] at h
    obtain ⟨hresult, rfl, rfl⟩ := h
    obtain ⟨hs', hp⟩ := v.subscribe_error hs hfree (Prod.ext hresult rfl)
    have hexclusive' := hexclusive.perm hp
    refine ⟨⟨hs', hexclusive', fun state hstate => ?_⟩, hp⟩
    rcases List.mem_append.mp hstate with hstate | hstate
    · exact hlog state hstate
    · exact List.mem_singleton.mp hstate ▸ hexclusive'
  unsubscribe := by
    rintro ⟨s, log⟩ n ⟨hs, hexclusive, hlog⟩
    obtain ⟨hs', hp⟩ := v.unsubscribe n hs
    have hexclusive' := hexclusive.filter hp
    refine ⟨⟨hs', hexclusive', fun state hstate => ?_⟩, hp⟩
    rcases List.mem_append.mp hstate with hstate | hstate
    · exact hlog state hstate
    · exact List.mem_singleton.mp hstate ▸ hexclusive'

end View

end Watcher

end ScriptWorks

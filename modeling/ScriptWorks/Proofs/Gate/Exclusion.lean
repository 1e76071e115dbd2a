import Mathlib.Data.List.Nodup
import ScriptWorks.Gate
import ScriptWorks.Proofs.Path.Tidy

/-!
# Exclusion at the gate

Giving a lock back and forgetting its key are two steps, and anybody may come in between. Still every
caller that holds or awaits the lock of a key has the one that the table keeps for this key, so that
there is one holder of a key at most.
-/

namespace ScriptWorks

/-- The first element that satisfies `q` is still the first after a filter that keeps it. -/
theorem find?_filter_of_find? {α : Type} {p q : α → Bool} {as : List α} {a : α}
    (h : as.find? q = some a) (hp : p a = true) : (as.filter p).find? q = some a := by
  induction as with
  | nil => cases h
  | cons b as ih =>
      rw [List.find?_cons] at h
      cases hb : q b with
      | true =>
          rw [hb] at h
          cases h
          rw [List.filter_cons_of_pos hp, List.find?_cons, hb]
      | false =>
          rw [hb] at h
          rw [List.filter_cons]
          split
          · rw [List.find?_cons, hb]
            exact ih h
          · exact ih h

namespace Gate

section

variable {τ : Type}

/-- The callers that hold the lock of a key. -/
def holders (g : Gate τ) (key : Path) : List (Ticket τ) :=
  g.tickets.filter fun t => t.phase = .held && t.key.same key

/-- What every step keeps: who shares a lock shares the one of the table, and only one holds it. -/
structure Orderly (g : Gate τ) : Prop where
  ids : (g.tickets.map (·.id)).Nodup
  locks : (g.table.map (·.2)).Nodup
  fresh : ∀ e ∈ g.table, e.2 < g.nextLock
  shared : ∀ t ∈ g.tickets, t.phase ≠ .leaving → g.lockOf? t.key = some t.lock
  exclusive : ∀ t ∈ g.tickets, ∀ u ∈ g.tickets, t.phase = .held → u.phase = .held →
    t.lock = u.lock → t = u

theorem mem_queue_iff {g : Gate τ} {lock : Nat} {t : Ticket τ} :
    t ∈ g.queue lock ↔ t ∈ g.tickets ∧ t.lock = lock ∧ t.phase ≠ .leaving := by
  simp [queue]

theorem isShared_of_mem {g : Gate τ} {t : Ticket τ} (ht : t ∈ g.tickets) (hp : t.phase ≠ .leaving) :
    g.isShared t.lock = true := by
  have hqueue := List.ne_nil_of_mem (mem_queue_iff.mpr ⟨ht, rfl, hp⟩)
  unfold isShared
  simpa using hqueue

theorem isHeld_of_mem {g : Gate τ} {t : Ticket τ} (ht : t ∈ g.tickets) (hp : t.phase = .held) :
    g.isHeld t.lock = true := by
  have hqueue : t ∈ g.queue t.lock := mem_queue_iff.mpr ⟨ht, rfl, by simp [hp]⟩
  exact List.any_eq_true.mpr ⟨t, hqueue, decide_eq_true hp⟩

theorem lockOf?_eq_some {g : Gate τ} {key : Path} {lock : Nat} (h : g.lockOf? key = some lock) :
    ∃ k, (k, lock) ∈ g.table ∧ k.same key = true := by
  obtain ⟨⟨k, l⟩, hfind, hl⟩ := Option.map_eq_some_iff.mp h
  cases hl
  exact ⟨k, List.mem_of_find?_eq_some hfind, by simpa using List.find?_some hfind⟩

theorem lockOf?_of_same {g : Gate τ} {p q : Path} (h : p.same q = true) :
    g.lockOf? p = g.lockOf? q := by
  have hkeys : (fun e : Path × Nat => e.1.same p) = fun e => e.1.same q :=
    funext fun e => Path.same_left h e.1
  unfold lockOf?
  rw [hkeys]

namespace Orderly

variable {g : Gate τ}

theorem eq_of_id (h : g.Orderly) {t u : Ticket τ} (ht : t ∈ g.tickets) (hu : u ∈ g.tickets)
    (hid : t.id = u.id) : t = u :=
  List.inj_on_of_nodup_map h.ids ht hu hid

/-- Callers with one lock came for one key. -/
theorem same_of_lock (h : g.Orderly) {t u : Ticket τ} (ht : t ∈ g.tickets) (hu : u ∈ g.tickets)
    (htp : t.phase ≠ .leaving) (hup : u.phase ≠ .leaving) (hlock : t.lock = u.lock) :
    t.key.same u.key = true := by
  obtain ⟨k, hk, hkt⟩ := lockOf?_eq_some (h.shared t ht htp)
  obtain ⟨k', hk', hku⟩ := lockOf?_eq_some (h.shared u hu hup)
  have hkk : k = k' := congrArg Prod.fst (List.inj_on_of_nodup_map h.locks hk hk' hlock)
  rw [← hkk] at hku
  rwa [Path.same_comm, ← Path.same_left hkt, Path.same_comm]

theorem length_holders_le (h : g.Orderly) (key : Path) : (g.holders key).length ≤ 1 := by
  -- Two holders of a key have the lock of that key, so they are one caller.
  have hone : ∀ t ∈ g.holders key, ∀ u ∈ g.holders key, t = u := by
    intro t ht u hu
    obtain ⟨ht, htp⟩ := List.mem_filter.mp ht
    obtain ⟨hu, hup⟩ := List.mem_filter.mp hu
    simp only [Bool.and_eq_true, decide_eq_true_eq] at htp hup
    have htl := h.shared t ht (by simp [htp.1])
    have hul := h.shared u hu (by simp [hup.1])
    rw [lockOf?_of_same htp.2] at htl
    rw [lockOf?_of_same hup.2, htl] at hul
    exact h.exclusive t ht u hu htp.1 hup.1 (Option.some.inj hul)
  have hnodup : (g.holders key).Nodup := (List.Nodup.of_map _ h.ids).filter _
  cases hholders : g.holders key with
  | nil => exact Nat.zero_le 1
  | cons t rest =>
      rw [hholders] at hone hnodup
      have hsub : t :: rest ⊆ [t] := fun u hu =>
        List.mem_singleton.mpr (hone u hu t List.mem_cons_self)
      exact hnodup.length_le_of_subset hsub

theorem empty : ({} : Gate τ).Orderly where
  ids := List.nodup_nil
  locks := List.nodup_nil
  fresh := by simp
  shared := by simp
  exclusive := by simp

/-! ## Steps -/

theorem append_waiting (h : g.Orderly) {id : τ} (hid : id ∉ g.tickets.map (·.id)) {key : Path}
    {lock : Nat} (hlock : g.lockOf? key = some lock) :
    Orderly { g with tickets := g.tickets ++ [⟨id, key, lock, .waiting⟩] } where
  ids := by
    rw [List.map_append, List.nodup_append]
    refine ⟨h.ids, List.nodup_singleton id, ?_⟩
    intro i hi j hj heq
    rw [heq, List.mem_singleton.mp hj] at hi
    exact hid hi
  locks := h.locks
  fresh := h.fresh
  shared := by
    intro t ht hp
    rcases List.mem_append.mp ht with ht | ht
    · exact h.shared t ht hp
    · rw [List.mem_singleton.mp ht]
      exact hlock
  exclusive := by
    intro t ht u hu htp hup hl
    rcases List.mem_append.mp ht with ht | ht
    · rcases List.mem_append.mp hu with hu | hu
      · exact h.exclusive t ht u hu htp hup hl
      · rw [List.mem_singleton.mp hu] at hup
        cases hup
    · rw [List.mem_singleton.mp ht] at htp
      cases htp

/-- The table with a lock of its own for one more key. -/
theorem addLock (h : g.Orderly) {key : Path} (hnone : g.lockOf? key = none) :
    let g' := { g with table := g.table ++ [(key, g.nextLock)], nextLock := g.nextLock + 1 }
    g'.Orderly ∧ g'.lockOf? key = some g.nextLock := by
  have hfind : g.table.find? (·.1.same key) = none := Option.map_eq_none_iff.mp hnone
  refine ⟨⟨h.ids, ?_, ?_, ?_, h.exclusive⟩, ?_⟩
  · rw [List.map_append, List.nodup_append]
    refine ⟨h.locks, List.nodup_singleton _, ?_⟩
    intro l hl m hm heq
    obtain ⟨e, he, hel⟩ := List.mem_map.mp hl
    rw [List.mem_singleton.mp hm, ← hel] at heq
    exact Nat.ne_of_lt (h.fresh e he) heq
  · intro e he
    rcases List.mem_append.mp he with he | he
    · exact Nat.lt_succ_of_lt (h.fresh e he)
    · rw [List.mem_singleton.mp he]
      exact Nat.lt_succ_self _
  · intro t ht hp
    obtain ⟨e, he, hl⟩ := Option.map_eq_some_iff.mp (h.shared t ht hp)
    unfold lockOf?
    rw [List.find?_append, he]
    exact congrArg some hl
  · unfold lockOf?
    simp [List.find?_append, hfind, Path.same_refl]

theorem join (h : g.Orderly) {id : τ} (hid : id ∉ g.tickets.map (·.id)) (key : Path) :
    (g.join id key).Orderly := by
  unfold Gate.join
  cases hlock : g.lockOf? key with
  | some lock => exact h.append_waiting hid hlock
  | none =>
      obtain ⟨h', hlock'⟩ := h.addLock hlock
      exact h'.append_waiting hid hlock'

theorem removeTicket [DecidableEq τ] (h : g.Orderly) (id : τ) : (g.removeTicket id).Orderly where
  ids := h.ids.sublist (List.filter_sublist.map _)
  locks := h.locks
  fresh := h.fresh
  shared t ht := h.shared t (List.mem_of_mem_filter ht)
  exclusive t ht u hu :=
    h.exclusive t (List.mem_of_mem_filter ht) u (List.mem_of_mem_filter hu)

theorem sweep (h : g.Orderly) (key : Path) : (g.sweep key).Orderly where
  ids := h.ids
  locks := h.locks.sublist (List.filter_sublist.map _)
  fresh e he := h.fresh e (List.mem_of_mem_filter he)
  shared := by
    intro t ht hp
    obtain ⟨e, he, hl⟩ := Option.map_eq_some_iff.mp (h.shared t ht hp)
    -- A lock that this caller shares stays in the table.
    have hkept : (!e.1.same key || g.isShared e.2) = true := by
      rw [hl, isShared_of_mem (g := g) ht hp, Bool.or_true]
    exact Option.map_eq_some_iff.mpr ⟨e, find?_filter_of_find? he hkept, hl⟩
  exclusive := h.exclusive

end Orderly

end

variable {τ : Type} [DecidableEq τ]

theorem ticket?_eq_some {g : Gate τ} {id : τ} {t : Ticket τ} (h : g.ticket? id = some t) :
    t ∈ g.tickets ∧ t.id = id :=
  ⟨List.mem_of_find?_eq_some h, by simpa using List.find?_some h⟩

theorem ticket?_isSome_iff {g : Gate τ} {id : τ} :
    (g.ticket? id).isSome = true ↔ id ∈ g.tickets.map (·.id) := by
  unfold ticket?
  rw [List.find?_isSome, List.mem_map]
  simp only [decide_eq_true_eq]

/-- Where a step asks something of a caller, the caller is there or nothing happens. -/
theorem any_ticket? {g : Gate τ} {id : τ} {p : Ticket τ → Bool} (h : (g.ticket? id).any p = true) :
    ∃ t ∈ g.tickets, t.id = id ∧ p t = true := by
  cases ht : g.ticket? id with
  | none =>
      rw [ht] at h
      cases h
  | some t =>
      rw [ht] at h
      obtain ⟨hmem, hid⟩ := ticket?_eq_some ht
      exact ⟨t, hmem, hid, h⟩

namespace Orderly

variable {g : Gate τ}

theorem ids_setPhase (h : g.Orderly) (id : τ) (phase : Phase) :
    ((g.setPhase id phase).tickets.map (·.id)).Nodup := by
  have hids : (g.setPhase id phase).tickets.map (·.id) = g.tickets.map (·.id) := by
    unfold setPhase
    rw [List.map_map]
    refine List.map_congr_left fun t _ => ?_
    show (if t.id = id then { t with phase } else t).id = t.id
    split <;> rfl
  rw [hids]
  exact h.ids

theorem grant (h : g.Orderly) (id : τ) : (g.grant id).Orderly := by
  unfold Gate.grant
  split
  case isFalse => exact h
  case isTrue hany =>
  obtain ⟨t₀, ht₀, rfl, hready⟩ := any_ticket? hany
  unfold isReady at hready
  obtain ⟨hwaits, hfree⟩ := Bool.and_eq_true_iff.mp hready
  rw [decide_eq_true_eq] at hwaits
  rw [Bool.not_eq_true'] at hfree
  refine ⟨h.ids_setPhase _ _, h.locks, h.fresh, ?_, ?_⟩
  · intro t' ht' hp
    obtain ⟨t, ht, rfl⟩ := List.mem_map.mp ht'
    split
    case isTrue hid =>
      cases h.eq_of_id ht ht₀ hid
      exact h.shared t₀ ht₀ (by simp [hwaits])
    case isFalse hid =>
      rw [if_neg hid] at hp
      exact h.shared t ht hp
  · -- Nobody held the lock, so its only holder is the one who got it.
    intro t' ht' u' hu' htp hup hl
    obtain ⟨t, ht, rfl⟩ := List.mem_map.mp ht'
    obtain ⟨u, hu, rfl⟩ := List.mem_map.mp hu'
    by_cases htid : t.id = t₀.id
    · cases h.eq_of_id ht ht₀ htid
      by_cases huid : u.id = t₀.id
      · cases h.eq_of_id hu ht₀ huid
        rfl
      · rw [if_neg huid] at hup hl
        rw [if_pos rfl] at hl
        have hheld := isHeld_of_mem hu hup
        rw [← hl, hfree] at hheld
        cases hheld
    · rw [if_neg htid] at htp hl ⊢
      by_cases huid : u.id = t₀.id
      · cases h.eq_of_id hu ht₀ huid
        rw [if_pos rfl] at hl
        have hheld := isHeld_of_mem ht htp
        rw [hl, hfree] at hheld
        cases hheld
      · rw [if_neg huid] at hup hl ⊢
        exact h.exclusive t ht u hu htp hup hl

theorem release (h : g.Orderly) (id : τ) : (g.release id).Orderly := by
  unfold Gate.release
  split
  case isFalse => exact h
  case isTrue =>
  refine ⟨h.ids_setPhase _ _, h.locks, h.fresh, ?_, ?_⟩
  · intro t' ht' hp
    obtain ⟨t, ht, rfl⟩ := List.mem_map.mp ht'
    by_cases hid : t.id = id
    · rw [if_pos hid] at hp
      exact absurd rfl hp
    · rw [if_neg hid] at hp ⊢
      exact h.shared t ht hp
  · intro t' ht' u' hu' htp hup hl
    obtain ⟨t, ht, rfl⟩ := List.mem_map.mp ht'
    obtain ⟨u, hu, rfl⟩ := List.mem_map.mp hu'
    by_cases htid : t.id = id
    · rw [if_pos htid] at htp
      cases htp
    by_cases huid : u.id = id
    · rw [if_pos huid] at hup
      cases hup
    rw [if_neg htid] at htp hl ⊢
    rw [if_neg huid] at hup hl ⊢
    exact h.exclusive t ht u hu htp hup hl

theorem forget (h : g.Orderly) (id : τ) : (g.forget id).Orderly := by
  unfold Gate.forget
  split
  · split
    · exact (h.removeTicket id).sweep _
    · exact h
  · exact h

theorem cancel (h : g.Orderly) (id : τ) : (g.cancel id).Orderly := by
  unfold Gate.cancel
  split
  · exact h.removeTicket id
  · exact h

theorem step (h : g.Orderly) (s : Step τ) : (g.step s).Orderly := by
  cases s with
  | join id key =>
      show (if (g.ticket? id).isSome then g else g.join id key).Orderly
      by_cases hid : (g.ticket? id).isSome
      · rw [if_pos hid]
        exact h
      · rw [if_neg hid]
        exact h.join (fun hmem => hid (ticket?_isSome_iff.mpr hmem)) key
  | grant id => exact h.grant id
  | release id => exact h.release id
  | forget id => exact h.forget id
  | cancel id => exact h.cancel id

theorem run (h : g.Orderly) (steps : List (Step τ)) : (g.run steps).Orderly := by
  induction steps generalizing g with
  | nil => exact h
  | cons s steps ih => exact ih (h.step s)

end Orderly

/-- However the steps of any number of callers follow one another, a key has one holder at most, and
all who hold or await the lock of a key have the lock that the table keeps for it, which serves no
other key. -/
theorem one_holder_and_one_lock_of_key (steps : List (Step τ)) :
    let g := ({} : Gate τ).run steps
    (∀ key, (g.holders key).length ≤ 1) ∧
      (∀ t ∈ g.tickets, t.phase ≠ .leaving → g.lockOf? t.key = some t.lock) ∧
      (∀ t ∈ g.tickets, ∀ u ∈ g.tickets, t.phase ≠ .leaving → u.phase ≠ .leaving →
        (t.lock = u.lock ↔ t.key.same u.key = true)) := by
  intro g
  have h : g.Orderly := Orderly.empty.run steps
  refine ⟨h.length_holders_le, h.shared, ?_⟩
  intro t ht u hu htp hup
  refine ⟨h.same_of_lock ht hu htp hup, ?_⟩
  intro hsame
  have htl := h.shared t ht htp
  rw [lockOf?_of_same hsame, h.shared u hu hup] at htl
  exact (Option.some.inj htl).symm

end Gate

end ScriptWorks

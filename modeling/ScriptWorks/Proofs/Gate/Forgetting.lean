import Mathlib.Data.List.Dedup
import Mathlib.Data.List.Induction
import Mathlib.Data.List.Perm.Subperm
import ScriptWorks.Proofs.Gate.Exclusion

/-!
# Keys that the gate keeps

Only who gives a lock back looks after the table. So a key leaves the table with its last caller, unless
this one goes away while it waits: then the key is orphaned, and stays until somebody comes for it again.
-/

namespace ScriptWorks.Gate

section

variable {τ : Type} {g : Gate τ} {key : Path}

/-- Nobody is between giving a lock back and looking after the table. -/
def IsSettled (g : Gate τ) : Prop := ∀ t ∈ g.tickets, t.phase ≠ .leaving

instance : Decidable g.IsSettled := inferInstanceAs (Decidable (∀ t ∈ g.tickets, t.phase ≠ .leaving))

/-- The keys whose lock somebody holds or waits for, each once. -/
def usedKeys (g : Gate τ) : List (List Path.Component) :=
  ((g.tickets.filter (·.phase ≠ .leaving)).map (·.key.components)).dedup

/-- Somebody is at the gate for the key, be it on the way out. -/
def IsVisited (g : Gate τ) (key : Path) : Prop := ∃ t ∈ g.tickets, t.key.same key = true

theorem isVisited_of_same {p q : Path} (h : p.same q = true) (hp : g.IsVisited p) :
    g.IsVisited q := by
  obtain ⟨t, ht, hsame⟩ := hp
  exact ⟨t, ht, Path.same_left h t.key ▸ hsame⟩

theorem nodup_usedKeys (g : Gate τ) : g.usedKeys.Nodup := List.nodup_dedup _

theorem mem_usedKeys_iff : key.components ∈ g.usedKeys ↔
    ∃ t ∈ g.tickets, t.phase ≠ .leaving ∧ t.key.same key = true := by
  simp [usedKeys, Path.same, and_assoc]

theorem Orderly.usedKeys_subset (h : g.Orderly) :
    g.usedKeys ⊆ g.table.map (·.1.components) := by
  intro key hkey
  obtain ⟨t, ht, rfl⟩ := List.mem_map.mp (List.mem_dedup.mp hkey)
  obtain ⟨ht, hphase⟩ := List.mem_filter.mp ht
  obtain ⟨k, hk, hsame⟩ := lockOf?_eq_some (h.shared t ht (of_decide_eq_true hphase))
  exact List.mem_map.mpr ⟨_, hk, of_decide_eq_true hsame⟩

theorem lockOf?_isSome_iff :
    (g.lockOf? key).isSome = true ↔ ∃ e ∈ g.table, e.1.same key = true := by
  rw [lockOf?, Option.isSome_map, List.find?_isSome]

/-- Who shares the lock of an entry came for its key. -/
theorem Orderly.isVisited_of_isShared (h : g.Orderly) {e : Path × Nat} (he : e ∈ g.table)
    (hshared : g.isShared e.2 = true) : g.IsVisited e.1 := by
  obtain ⟨t, hqueue⟩ := List.exists_mem_of_ne_nil (g.queue e.2) (by simpa [isShared] using hshared)
  obtain ⟨ht, hlock, hphase⟩ := mem_queue_iff.mp hqueue
  obtain ⟨k, hk, hsame⟩ := lockOf?_eq_some (h.shared t ht hphase)
  have heq : (k, t.lock) = e := List.inj_on_of_nodup_map h.locks hk he hlock
  rw [← heq]
  exact ⟨t, ht, by rwa [Path.same_comm]⟩

theorem isVisited_join_self (g : Gate τ) (id : τ) : (g.join id key).IsVisited key := by
  unfold join
  split <;> exact ⟨_, List.mem_concat_self, Path.same_refl key⟩

theorem IsVisited.join (h : g.IsVisited key) (id : τ) (p : Path) : (g.join id p).IsVisited key := by
  obtain ⟨t, ht, hsame⟩ := h
  unfold Gate.join
  split <;> exact ⟨t, List.mem_append_left _ ht, hsame⟩

/-- A key that is new in the table is there for somebody who came for it. -/
theorem mem_table_join {id : τ} {p : Path} {e : Path × Nat} (he : e ∈ (g.join id p).table) :
    e ∈ g.table ∨ e.1 = p := by
  unfold Gate.join at he
  split at he
  · exact .inl he
  · exact (List.mem_append.mp he).imp_right fun he => by rw [List.mem_singleton.mp he]

/-- The keys of the table are all different. -/
def HasDistinctKeys (g : Gate τ) : Prop := (g.table.map (·.1.components)).Nodup

theorem HasDistinctKeys.join (h : g.HasDistinctKeys) (id : τ) (p : Path) :
    (g.join id p).HasDistinctKeys := by
  unfold Gate.join
  cases hlock : g.lockOf? p with
  | some lock => exact h
  | none =>
      show ((g.table ++ [(p, g.nextLock)]).map (·.1.components)).Nodup
      rw [List.map_append, List.nodup_append]
      refine ⟨h, List.nodup_singleton _, ?_⟩
      rintro _ hmem _ hp rfl
      obtain ⟨e, he, hsame⟩ := List.mem_map.mp hmem
      have hsome : (g.lockOf? p).isSome = true :=
        lockOf?_isSome_iff.mpr ⟨e, he, decide_eq_true (hsame.trans (List.mem_singleton.mp hp))⟩
      rw [hlock] at hsome
      cases hsome

end

variable {τ : Type} [DecidableEq τ] {g : Gate τ} {s : Step τ} {steps : List (Step τ)} {key : Path}

/-! ## What a step does -/

/-- The ways of a step: nothing happens, somebody comes, or moves on, or leaves and looks after the table,
or goes away while it waits. -/
theorem step_cases (g : Gate τ) (s : Step τ) :
    g.step s = g ∨
    (∃ id key, g.step s = g.join id key) ∨
    (∃ id phase, g.step s = g.setPhase id phase) ∨
    (∃ t ∈ g.tickets, g.step s = (g.removeTicket t.id).sweep t.key) ∨
    (∃ t ∈ g.tickets, t.phase = .waiting ∧ s = .cancel t.id ∧ g.step s = g.removeTicket t.id) := by
  cases s with
  | join id key =>
      by_cases hid : (g.ticket? id).isSome = true
      · exact .inl (if_pos hid)
      · exact .inr (.inl ⟨id, key, if_neg hid⟩)
  | grant id =>
      by_cases hready : (g.ticket? id).any g.isReady = true
      · exact .inr (.inr (.inl ⟨id, .held, if_pos hready⟩))
      · exact .inl (if_neg hready)
  | release id =>
      by_cases hheld : (g.ticket? id).any (·.phase = .held) = true
      · exact .inr (.inr (.inl ⟨id, .leaving, if_pos hheld⟩))
      · exact .inl (if_neg hheld)
  | forget id =>
      show g.forget id = g ∨ _
      unfold forget
      cases ht : g.ticket? id with
      | none => exact .inl rfl
      | some t =>
          obtain ⟨hmem, rfl⟩ := ticket?_eq_some ht
          by_cases hphase : t.phase = .leaving
          · exact .inr (.inr (.inr (.inl ⟨t, hmem, by simp [step, forget, ht, hphase]⟩)))
          · exact .inl (if_neg hphase)
  | cancel id =>
      by_cases hwaits : (g.ticket? id).any (·.phase = .waiting) = true
      · obtain ⟨t, ht, rfl, hphase⟩ := any_ticket? hwaits
        exact .inr (.inr (.inr (.inr ⟨t, ht, of_decide_eq_true hphase, rfl, if_pos hwaits⟩)))
      · exact .inl (if_neg hwaits)

theorem isVisited_setPhase_iff {id : τ} {phase : Phase} :
    (g.setPhase id phase).IsVisited key ↔ g.IsVisited key := by
  have hkey : ∀ t : Ticket τ, (if t.id = id then { t with phase } else t).key = t.key := by
    intro t
    split <;> rfl
  simp [IsVisited, setPhase, hkey]

theorem HasDistinctKeys.step (h : g.HasDistinctKeys) (s : Step τ) : (g.step s).HasDistinctKeys := by
  rcases step_cases g s with heq | ⟨id, p, heq⟩ | ⟨id, phase, heq⟩ | ⟨t, -, heq⟩ | ⟨t, -, -, -, heq⟩ <;>
    rw [heq]
  · exact h
  · exact h.join id p
  · exact h
  · exact List.Nodup.sublist (List.filter_sublist.map _) h
  · exact h

theorem HasDistinctKeys.run (h : g.HasDistinctKeys) (steps : List (Step τ)) :
    (g.run steps).HasDistinctKeys := by
  induction steps generalizing g with
  | nil => exact h
  | cons s steps ih => exact ih (h.step s)

theorem IsVisited.removeTicket (h : g.IsVisited key) (horderly : g.Orderly) {t : Ticket τ}
    (ht : t ∈ g.tickets) (hother : t.key.same key = false) :
    (g.removeTicket t.id).IsVisited key := by
  obtain ⟨u, hu, hsame⟩ := h
  refine ⟨u, List.mem_filter.mpr ⟨hu, decide_eq_true fun hid => ?_⟩, hsame⟩
  rw [horderly.eq_of_id hu ht hid, hother] at hsame
  cases hsame

/-! ## Orphaned keys -/

/-- The last caller of the key went away while it waited, and nobody has come for the key since. -/
def Orphaned (steps : List (Step τ)) (key : Path) : Prop :=
  ∃ before id after, steps = before ++ .cancel id :: after ∧
    (∃ t ∈ (run {} before).tickets, t.id = id ∧ t.phase = .waiting ∧ t.key.same key = true) ∧
    ∀ more, more <+: after → ¬ (run {} (before ++ .cancel id :: more)).IsVisited key

theorem run_append (g : Gate τ) (steps more : List (Step τ)) :
    g.run (steps ++ more) = (g.run steps).run more := List.foldl_append

theorem Orphaned.not_isVisited (h : Orphaned steps key) : ¬ (run {} steps).IsVisited key := by
  obtain ⟨before, id, after, rfl, -, hnobody⟩ := h
  exact hnobody after List.prefix_rfl

theorem Orphaned.of_same {p q : Path} (h : Orphaned steps p) (hsame : p.same q = true) :
    Orphaned steps q := by
  obtain ⟨before, id, after, heq, ⟨t, ht, hid, hwaits, hkey⟩, hnobody⟩ := h
  refine ⟨before, id, after, heq, ⟨t, ht, hid, hwaits, Path.same_left hsame t.key ▸ hkey⟩, ?_⟩
  intro more hmore hvisited
  exact hnobody more hmore (isVisited_of_same (Path.same_comm q p ▸ hsame) hvisited)

theorem Orphaned.concat (h : Orphaned steps key)
    (hnobody : ¬ (run {} (steps ++ [s])).IsVisited key) : Orphaned (steps ++ [s]) key := by
  obtain ⟨before, id, after, rfl, hwaits, hsince⟩ := h
  rw [List.append_assoc, List.cons_append] at hnobody ⊢
  refine ⟨before, id, after ++ [s], rfl, hwaits, fun more hmore => ?_⟩
  rcases List.prefix_concat_iff.mp hmore with rfl | hmore
  · exact hnobody
  · exact hsince more hmore

/-- A key that nobody is at the gate for stays in the table. -/
theorem isSome_step (hsome : (g.lockOf? key).isSome = true) (hnobody : ¬ g.IsVisited key)
    (s : Step τ) : ((g.step s).lockOf? key).isSome = true := by
  obtain ⟨e, he, hsame⟩ := lockOf?_isSome_iff.mp hsome
  rw [lockOf?_isSome_iff]
  refine ⟨e, ?_, hsame⟩
  rcases step_cases g s with heq | ⟨id, p, heq⟩ | ⟨id, phase, heq⟩ | ⟨t, ht, heq⟩ | ⟨t, -, -, -, heq⟩ <;>
    rw [heq]
  · exact he
  · unfold join
    split
    · exact he
    · exact List.mem_append_left _ he
  · exact he
  · refine List.mem_filter.mpr ⟨he, Bool.or_eq_true_iff.mpr (.inl ?_)⟩
    -- Who looks after the table came for another key.
    rw [Bool.not_eq_true', Bool.eq_false_iff]
    intro hkey
    exact hnobody ⟨t, ht, by rwa [← Path.same_left hsame, Path.same_comm]⟩
  · exact he

theorem Orphaned.isSome (h : Orphaned steps key) : ((run {} steps).lockOf? key).isSome = true := by
  obtain ⟨before, id, after, rfl, ⟨t, ht, rfl, hwaits, hsame⟩, hnobody⟩ := h
  induction after using List.reverseRecOn with
  | nil =>
      have horderly : (run {} before).Orderly := Orderly.empty.run before
      have hlock := horderly.shared t ht (by simp [hwaits])
      rw [lockOf?_of_same hsame] at hlock
      rw [run_append]
      show ((cancel _ _).lockOf? key).isSome = true
      unfold cancel
      split
      · exact Option.isSome_of_eq_some hlock
      · exact Option.isSome_of_eq_some hlock
  | append_singleton after s ih =>
      have hbefore := ih fun more hmore => hnobody more (hmore.trans (List.prefix_append ..))
      rw [← List.cons_append, ← List.append_assoc, run_append]
      exact isSome_step hbefore (hnobody after (List.prefix_append ..)) s

/-- A key stays in the table for somebody who is at the gate for it, or as an orphan. -/
theorem isVisited_or_orphaned (steps : List (Step τ)) :
    ∀ e ∈ (run {} steps).table, (run {} steps).IsVisited e.1 ∨ Orphaned steps e.1 := by
  induction steps using List.reverseRecOn with
  | nil => nofun
  | append_singleton steps s ih =>
      intro e he
      by_cases hvisited : (run {} (steps ++ [s])).IsVisited e.1
      · exact .inl hvisited
      refine .inr ?_
      have hbefore : (run {} steps).Orderly := Orderly.empty.run steps
      have horderly : (run {} (steps ++ [s])).Orderly := Orderly.empty.run _
      -- What was an orphan is still one, and a visited key lost its last caller in this step.
      have hkept : e ∈ (run {} steps).table → ¬ (run {} steps).IsVisited e.1 →
          Orphaned (steps ++ [s]) e.1 := fun hmem hnobody =>
        ((ih e hmem).resolve_left hnobody).concat hvisited
      have hrun : run {} (steps ++ [s]) = (run {} steps).step s := run_append ..
      rcases step_cases (run {} steps) s with
        heq | ⟨id, p, heq⟩ | ⟨id, phase, heq⟩ | ⟨t, ht, heq⟩ | ⟨t, ht, hwaits, rfl, heq⟩ <;>
        rw [← hrun] at heq
      · rw [heq] at he hvisited
        exact hkept he hvisited
      · rw [heq] at he hvisited
        rcases mem_table_join he with hmem | rfl
        · exact hkept hmem fun hold => hvisited (hold.join id p)
        · exact absurd (isVisited_join_self _ id) hvisited
      · rw [heq] at he hvisited
        exact hkept he fun hold => hvisited (isVisited_setPhase_iff.mpr hold)
      · -- A key that was looked after is still there because its lock is shared.
        rw [heq] at he hvisited horderly
        obtain ⟨hmem, hstays⟩ := List.mem_filter.mp he
        rcases Bool.or_eq_true_iff.mp hstays with hother | hshared
        · have hother : t.key.same e.1 = false := by
            rw [Path.same_comm]
            simpa using hother
          exact hkept hmem fun hold => hvisited (hold.removeTicket hbefore ht hother)
        · exact absurd (horderly.isVisited_of_isShared he hshared) hvisited
      · rw [heq] at he
        by_cases hkey : t.key.same e.1 = true
        · refine ⟨steps, t.id, [], rfl, ⟨t, ht, rfl, hwaits, hkey⟩, fun more hmore => ?_⟩
          rwa [List.prefix_nil.mp hmore]
        · rw [heq] at hvisited
          exact hkept he fun hold =>
            hvisited (hold.removeTicket hbefore ht (Bool.eq_false_iff.mpr hkey))

/-! ## Counting keys -/

/-- Of a gate at which nobody looks after the table just now, the table has the keys that somebody holds
or waits for, and the orphans. So it has as many keys as are used exactly if there is no orphan. -/
theorem tracked_keys_are_used_or_orphaned (steps : List (Step τ))
    (hsettled : (run {} steps).IsSettled) :
    let g := run {} steps
    (∀ key, (g.lockOf? key).isSome = true ↔ key.components ∈ g.usedKeys ∨ Orphaned steps key) ∧
      (g.tracked = g.usedKeys.length ↔ ∀ key, ¬ Orphaned steps key) := by
  intro g
  have horderly : g.Orderly := Orderly.empty.run steps
  have hempty : ({} : Gate τ).HasDistinctKeys := List.nodup_nil
  have hdistinct : (g.table.map (·.1.components)).Nodup := hempty.run steps
  have htracked : (g.table.map (·.1.components)).length = g.tracked := List.length_map _
  have hsub := horderly.usedKeys_subset
  have hused : ∀ e ∈ g.table, e.1.components ∈ g.usedKeys ∨ Orphaned steps e.1 := fun e he =>
    (isVisited_or_orphaned steps e he).imp_left fun ⟨t, ht, hsame⟩ =>
      mem_usedKeys_iff.mpr ⟨t, ht, hsettled t ht, hsame⟩
  refine ⟨fun key => ⟨fun hsome => ?_, ?_⟩, fun hcount key horphan => ?_, fun hnone => ?_⟩
  · obtain ⟨e, he, hsame⟩ := lockOf?_isSome_iff.mp hsome
    rw [← of_decide_eq_true hsame]
    exact (hused e he).imp_right (·.of_same hsame)
  · rintro (hmem | horphan)
    · obtain ⟨e, he, hkey⟩ := List.mem_map.mp (hsub hmem)
      exact lockOf?_isSome_iff.mpr ⟨e, he, decide_eq_true hkey⟩
    · exact horphan.isSome
  · -- The used keys are as many as those of the table, so that each key of the table is used.
    obtain ⟨e, he, hsame⟩ := lockOf?_isSome_iff.mp horphan.isSome
    have hperm : g.usedKeys.Perm (g.table.map (·.1.components)) :=
      (List.subperm_of_subset g.nodup_usedKeys hsub).perm_of_length_le
        (Nat.le_of_eq (htracked.trans hcount))
    have hmem : e.1.components ∈ g.usedKeys := hperm.mem_iff.mpr (List.mem_map_of_mem he)
    obtain ⟨t, ht, -, hvisits⟩ := mem_usedKeys_iff.mp hmem
    exact horphan.not_isVisited (isVisited_of_same hsame ⟨t, ht, hvisits⟩)
  · have hsub' : g.table.map (·.1.components) ⊆ g.usedKeys := by
      intro key hkey
      obtain ⟨e, he, rfl⟩ := List.mem_map.mp hkey
      exact (hused e he).resolve_right (hnone e.1)
    rw [← htracked]
    exact Nat.le_antisymm (hdistinct.length_le_of_subset hsub')
      (g.nodup_usedKeys.length_le_of_subset hsub)

/-- One caller gives the lock back while another waits, who then goes away; a third comes for another
key. -/
theorem tracked_keys_are_used_or_orphaned_of_two :
    let key : Path := ⟨"/v/a.ts"⟩
    let steps : List (Step Nat) := [.join 1 key, .grant 1, .join 2 key, .release 1, .forget 1,
      .cancel 2, .join 3 ⟨"/v/b.ts"⟩]
    let g := run {} steps
    g.IsSettled ∧ g.tracked = 2 ∧ g.usedKeys = [[.root, .name "v", .name "b.ts"]] ∧
      Orphaned steps key := by
  intro key steps g
  have hsettled : g.IsSettled := by decide +kernel
  have hused : g.usedKeys = [[.root, .name "v", .name "b.ts"]] := by decide +kernel
  have hsome : (g.lockOf? key).isSome = true := by decide +kernel
  have hunused : key.components ∉ g.usedKeys := by decide +kernel
  obtain ⟨hkeys, -⟩ := tracked_keys_are_used_or_orphaned steps hsettled
  exact ⟨hsettled, by decide +kernel, hused, ((hkeys key).mp hsome).resolve_left hunused⟩

/-- A key whose last caller went away while it waited is tracked, though nobody holds its lock or waits
for it. -/
theorem abandoned_key_is_tracked :
    let key : Path := ⟨"/v/a.ts"⟩
    let g := run ({} : Gate Nat) [.join 1 key, .grant 1, .join 2 key, .release 1, .forget 1, .cancel 2]
    g.IsSettled ∧ g.tickets.length = 0 ∧ g.usedKeys.length = 0 ∧ g.tracked = 1 := by
  decide +kernel

end ScriptWorks.Gate

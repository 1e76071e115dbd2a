import ScriptWorks.Proofs.Json.Fuel

/-!
# What the reader passes over

Whatever the reader takes of a text consists of whole strings and of characters outside of strings, so
that what it leaves does not begin within a string.
-/

namespace ScriptWorks.Json

/-- The first text goes on with the second one after whole strings and characters outside of strings. -/
inductive Passes : List Char → List Char → Prop
  | done {r} : Passes r r
  | char {c cs r} : c ≠ '"' → Passes cs r → Passes (c :: cs) r
  | string {b cs r} : StringBody b → Passes cs r → Passes ('"' :: (b ++ '"' :: cs)) r

namespace Passes

variable {cs s r : List Char}

theorem trans (h : Passes cs s) (hs : Passes s r) : Passes cs r := by
  induction h with
  | done => exact hs
  | char hc _ ih => exact .char hc (ih hs)
  | string hb _ ih => exact .string hb (ih hs)

theorem length_le (h : Passes cs r) : r.length ≤ cs.length := by
  induction h with
  | done => exact Nat.le_refl _
  | char _ _ ih => exact Nat.le_succ_of_le ih
  | string _ _ ih =>
      simp only [List.length_cons, List.length_append]
      omega

theorem mem (h : Passes cs r) {c : Char} (hc : c ∈ r) : c ∈ cs := by
  induction h with
  | done => exact hc
  | char _ _ ih => exact List.mem_cons_of_mem _ (ih hc)
  | string _ _ ih => simp [ih hc]

theorem of_skipSpace (h : Passes (skipSpace cs) r) : Passes cs r := by
  induction cs with
  | nil => exact h
  | cons c cs ih =>
      cases hc : isSpace c with
      | true =>
          rw [skipSpace_space hc] at h
          exact .char (ne_of_class hc rfl) (ih h)
      | false => rwa [skipSpace_of_not hc] at h

theorem of_char {c : Char} (hcs : skipSpace cs = c :: s) (hc : c ≠ '"') (h : Passes s r) :
    Passes cs r := of_skipSpace (hcs ▸ .char hc h)

theorem of_string {x : String} (hcs : skipSpace cs = '"' :: s) {s' : List Char}
    (hs : readString s = .ok (x, s')) (h : Passes s' r) : Passes cs r := by
  obtain ⟨chars, hchars, -⟩ := readString_eq_ok_iff.mp hs
  obtain ⟨b, hb, rfl, -⟩ := hchars.exists_body
  exact of_skipSpace (hcs ▸ .string hb h)

theorem of_word {w : List Char} (hcs : skipSpace cs = w ++ s) (hw : IsWord w) (h : Passes s r) :
    Passes cs r := by
  refine of_skipSpace (hcs ▸ ?_)
  clear hcs
  induction w with
  | nil => exact h
  | cons c w ih =>
      obtain ⟨hc, hw⟩ := List.forall_mem_cons.mp hw
      exact .char (ne_of_class hc rfl) (ih hw)

end Passes

/-- All parts of the reader that succeed with so much fuel pass over what they take. -/
structure ReadsPassing (fuel : Nat) : Prop where
  value {depth cs v r} : readValue fuel depth cs = .ok (v, r) → Passes cs r
  items {depth cs vs r} : readItems fuel depth cs = .ok (vs, r) → Passes cs r
  members {depth ms k cs result r} : readMembers fuel depth ms k cs = .ok (result, r) → Passes cs r
  embedded {depth cs v r} : readEmbedded fuel depth cs = .ok (v, r) → Passes cs r

namespace ReadsPassing

variable {fuel depth : Nat} {cs r : List Char}

theorem value_succ (ih : ReadsPassing fuel) {v : Json} (h : ReadsValue fuel depth cs v r) :
    Passes cs r := by
  cases h with
  | keyword hcs hk => exact .of_word hcs hk.isWord .done
  | negative hcs hn =>
      obtain ⟨w, hw, rfl, -⟩ := Numeral.readsWord_read true hn
      exact .of_word hcs (List.forall_mem_cons.mpr ⟨rfl, hw⟩) .done
  | numeral hcs hc hn =>
      obtain ⟨w, hw, hs, -⟩ := Numeral.readsWord_read false hn
      exact .of_word (hcs.trans hs) hw .done
  | string hcs hx => exact .of_string hcs hx .done
  | emptyList hcs hd hs => exact .of_char hcs (by decide) (.of_char hs (by decide) .done)
  | list hcs hd hs hc hvs =>
      exact .of_char hcs (by decide) (.of_skipSpace (hs ▸ ih.items hvs))
  | emptyObject hcs hd hs => exact .of_char hcs (by decide) (.of_char hs (by decide) .done)
  | object hcs hd hs hk he hms =>
      exact .of_char hcs (by decide) (.of_string hs hk (ih.members hms))
  | embedded hcs hd hs hk hv =>
      exact .of_char hcs (by decide) (.of_string hs hk (ih.embedded hv))

theorem items_succ (ih : ReadsPassing fuel) {vs : List Json} (h : ReadsItems fuel depth cs vs r) :
    Passes cs r := by
  cases h with
  | last hv hs => exact (ih.value hv).trans (.of_char hs (by decide) .done)
  | more hv hs hs' hc hvs =>
      exact (ih.value hv).trans (.of_char hs (by decide) (.of_skipSpace (hs' ▸ ih.items hvs)))

theorem members_succ (ih : ReadsPassing fuel) {ms result : Dict Json} {k : String}
    (h : ReadsMembers fuel depth ms k cs result r) : Passes cs r := by
  cases h with
  | last hcs hv hs =>
      exact .of_char hcs (by decide) ((ih.value hv).trans (.of_char hs (by decide) .done))
  | more hcs hv hs ht hk hms =>
      have hnext := Passes.of_string ht hk (ih.members hms)
      exact .of_char hcs (by decide) ((ih.value hv).trans (.of_char hs (by decide) hnext))

theorem embedded_succ {v : Json} (h : readEmbedded (fuel + 1) depth cs = .ok (v, r)) :
    Passes cs r := by
  obtain ⟨s, s', x, s'', hcs, hs, hx, -, hclose⟩ := readEmbedded_eq_ok_iff.mp h
  exact .of_char hcs (by decide) (.of_string hs hx (.of_char hclose (by decide) .done))

end ReadsPassing

theorem readsPassing (fuel : Nat) : ReadsPassing fuel := by
  induction fuel with
  | zero => exact ⟨nofun, nofun, nofun, nofun⟩
  | succ fuel ih =>
      exact ⟨fun h => ih.value_succ (readValue_eq_ok_iff.mp h),
        fun h => ih.items_succ (readItems_eq_ok_iff.mp h),
        fun h => ih.members_succ (readMembers_eq_ok_iff.mp h), ReadsPassing.embedded_succ⟩

end ScriptWorks.Json

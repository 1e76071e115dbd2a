import ScriptWorks.Proofs.Json.Passing
import ScriptWorks.Proofs.Jsonc.Lines

/-!
# Where strings of a stripped text come from

Outside of strings, comments and commas are taken away, but a string is left as it is: where the stripped
text has one, the text has the same one.
-/

namespace ScriptWorks.Jsonc

open Json
open Text (byteLength)

variable {text u p q s : List Char} {region : Region}

namespace Region

/-- What is not part of a string. -/
def outside : Region → Bool
  | .string | .escape => false
  | .code | .lineComment | .blockComment => true

end Region

/-! ## The next character -/

/-- What is kept from a region outside of strings on: a string is open next, or a region outside of strings
goes on. -/
inductive GoesOn (region : Region) (u : List Char) : Prop
  | done : kept region u = [] → GoesOn region u
  | string (s : List Char) : kept region u = ('"', s) :: kept .string s → GoesOn region u
  | char (d : Char) (s : List Char) (next : Region) : d ≠ '"' → next.outside = true →
      kept region u = (d, s) :: kept next s → GoesOn region u

namespace GoesOn

variable {c : Char}

theorem skip {region' : Region} {u' : List Char} (h : GoesOn region' u')
    (hkept : kept region u = kept region' u') : GoesOn region u := by
  cases h with
  | done h => exact .done (hkept.trans h)
  | string s h => exact .string s (hkept.trans h)
  | char d s next hd hnext h => exact .char d s next hd hnext (hkept.trans h)

/-- A slash begins a comment or is kept. -/
theorem slash (h : ∀ d t, s = d :: t → GoesOn .lineComment t ∧ GoesOn .blockComment t) :
    GoesOn .code ('/' :: s) := by
  cases s with
  | nil => exact .char '/' [] .code (by decide) rfl rfl
  | cons d t =>
    obtain ⟨hline, hblock⟩ := h d t rfl
    by_cases hd : d = '/'
    · exact hline.skip (by rw [kept.eq_def]; simp [hd])
    by_cases hstar : d = '*'
    · exact hblock.skip (by rw [kept.eq_def]; simp [hstar])
    · exact .char '/' (d :: t) .code (by decide) rfl (by rw [kept.eq_def]; simp [hd, hstar])

theorem code (h : ∀ d t, s = d :: t → GoesOn .lineComment t ∧ GoesOn .blockComment t) :
    GoesOn .code (c :: s) := by
  by_cases hquote : c = '"'
  · exact hquote ▸ .string s (kept_quote s)
  by_cases hslash : c = '/'
  · exact hslash ▸ slash h
  · exact .char c s .code hquote rfl (kept_char hquote hslash s)

theorem lineComment (h : GoesOn .lineComment s) : GoesOn .lineComment (c :: s) := by
  by_cases hc : c = '\n'
  · exact .char c s .code (by simp [hc]) rfl (by simp [kept, hc])
  · exact h.skip (by simp [kept, hc])

theorem blockComment (h : GoesOn .blockComment s) (hcode : ∀ d t, s = d :: t → GoesOn .code t) :
    GoesOn .blockComment (c :: s) := by
  by_cases hstar : c = '*'
  · subst hstar
    cases s with
    | nil => exact .done rfl
    | cons d t =>
      by_cases hd : d = '/'
      · exact (hcode d t rfl).skip ((kept_star d t).trans (if_pos hd))
      · exact h.skip ((kept_star d t).trans (if_neg hd))
  by_cases hc : c = '\n'
  · have hkept := (kept_blockComment hstar s).trans (if_pos hc)
    exact .char c s .blockComment (by simp [hc]) rfl hkept
  · exact h.skip ((kept_blockComment hstar s).trans (if_neg hc))

end GoesOn

/-- By induction on the length: a mark of two characters is taken at once. -/
theorem goesOn (hout : region.outside = true) (u : List Char) : GoesOn region u := by
  induction hn : u.length using Nat.strongRecOn generalizing region u with
  | ind n ih =>
    cases u with
    | nil => exact .done (by cases region <;> rfl)
    | cons c s =>
      have hnext {region : Region} (hout : region.outside = true) : GoesOn region s :=
        ih s.length (by rw [← hn, List.length_cons]; omega) hout s rfl
      have hmark {region : Region} (hout : region.outside = true) (d t) (hs : s = d :: t) :
          GoesOn region t :=
        ih t.length (by rw [← hn, hs, List.length_cons, List.length_cons]; omega) hout t rfl
      cases region with
      | string | escape => cases hout
      | code => exact .code fun d t hs => ⟨hmark rfl d t hs, hmark rfl d t hs⟩
      | lineComment => exact .lineComment (hnext rfl)
      | blockComment => exact .blockComment (hnext rfl) (hmark rfl)

/-- What is left of a text from a region outside of strings on. -/
def stripFrom (region : Region) (u : List Char) : List Char := blankCommas .code (dropComments region u)

/-- What is left of the text starts with `c` and goes on with `p`. -/
inductive Starts (region : Region) (u : List Char) (c : Char) (p : List Char) : Prop
  | string (s : List Char) : c = '"' → kept region u = ('"', s) :: kept .string s →
      p = blankCommas .string (dropComments .string s) → Starts region u c p
  | char (d : Char) (s : List Char) (next : Region) : c ≠ '"' → next.outside = true →
      kept region u = (d, s) :: kept next s → p = stripFrom next s → Starts region u c p

theorem Starts.of_char {c d : Char} {next : Region} (hd : d ≠ '"') (hnext : next.outside = true)
    (hkept : kept region u = (d, s) :: kept next s)
    (h : blankCommas .code (d :: dropComments next s) = c :: p) : Starts region u c p := by
  by_cases hcomma : d = ','
  · rw [hcomma, blankCommas_comma] at h
    obtain ⟨hc, hp⟩ := List.cons.inj h
    refine .char d s next ?_ hnext hkept hp.symm
    rw [← hc]
    split <;> decide
  · rw [blankCommas_char hd hcomma] at h
    obtain ⟨hc, hp⟩ := List.cons.inj h
    exact .char d s next (hc ▸ hd) hnext hkept hp.symm

theorem starts_of_stripFrom {c : Char} (hout : region.outside = true) (h : stripFrom region u = c :: p) :
    Starts region u c p := by
  rw [stripFrom, ← map_kept] at h
  cases goesOn hout u with
  | done hkept =>
      rw [hkept] at h
      cases h
  | string s hkept =>
      rw [hkept, List.map_cons, map_kept] at h
      obtain ⟨hc, hp⟩ := List.cons.inj h
      exact .string s hc.symm hkept hp.symm
  | char d s next hd hnext hkept =>
      rw [hkept, List.map_cons, map_kept] at h
      exact .of_char hd hnext hkept h

/-! ## Places outside of strings -/

/-- The place outside of strings from which the text goes on with `u`, and the stripped text with `p`. -/
structure Meets (text : List Char) (region : Region) (u p : List Char) : Prop where
  outside : region.outside = true
  kept : ∃ ks, Jsonc.kept .code text = ks ++ Jsonc.kept region u
  left : p = stripFrom region u

theorem meets_strip (text : List Char) : Meets text .code text (strip text) := ⟨rfl, ⟨[], rfl⟩, rfl⟩

/-- The closing quote of a string ends it. -/
theorem exists_kept_string {b : List Char} (hb : StringBody b) (s : List Char) :
    ∃ ks, kept .string (b ++ '"' :: s) = ks ++ kept .code s := by
  induction hb with
  | nil => exact ⟨[('"', s)], by simp [kept]⟩
  | @char c b hquote hslash _ ih =>
      obtain ⟨ks, hks⟩ := ih
      exact ⟨(c, b ++ '"' :: s) :: ks, by simp [kept, hquote, hslash, hks]⟩
  | @escape c b _ ih =>
      obtain ⟨ks, hks⟩ := ih
      exact ⟨('\\', c :: (b ++ '"' :: s)) :: (c, b ++ '"' :: s) :: ks, by simp [kept, hks]⟩

namespace Meets

variable {b : List Char} {c : Char}

theorem char (h : Meets text region u (c :: p)) (hc : c ≠ '"') :
    ∃ region' u', Meets text region' u' p := by
  obtain ⟨ks, hks⟩ := h.kept
  cases starts_of_stripFrom h.outside h.left.symm with
  | string _ hquote => exact absurd hquote hc
  | char d s next _ hnext hkept hp =>
      exact ⟨next, s, hnext, ⟨ks ++ [(d, s)], by rw [hks, hkept, List.append_assoc]; rfl⟩, hp⟩

/-- The text has the string that the stripped text has. -/
theorem exists_string (h : Meets text region u ('"' :: (b ++ '"' :: p))) (hb : StringBody b) :
    ∃ ks s, Jsonc.kept .code text =
        ks ++ ('"', b ++ '"' :: s) :: Jsonc.kept .string (b ++ '"' :: s) ∧
      b ++ '"' :: p = blankCommas .string (dropComments .string (b ++ '"' :: s)) := by
  obtain ⟨ks, hks⟩ := h.kept
  cases starts_of_stripFrom h.outside h.left.symm with
  | char _ _ _ hquote => exact absurd rfl hquote
  | string s _ hkept hp =>
      obtain ⟨r, hr⟩ := copiesStrings_blankCommas.exists_of_body hb hp.symm
      obtain ⟨s, rfl⟩ := copiesStrings_dropComments.exists_of_body hb hr
      exact ⟨ks, s, by rw [hks, hkept], hp⟩

theorem string (h : Meets text region u ('"' :: (b ++ '"' :: p))) (hb : StringBody b) :
    ∃ region' u', Meets text region' u' p := by
  obtain ⟨ks, s, hks, hp⟩ := h.exists_string hb
  obtain ⟨ks', hks'⟩ := exists_kept_string hb s
  rw [copiesStrings_dropComments.body hb, copiesStrings_blankCommas.body hb] at hp
  refine ⟨.code, s, rfl, ⟨ks ++ ('"', b ++ '"' :: s) :: ks', ?_⟩,
    (List.cons.inj (List.append_cancel_left hp)).2⟩
  rw [hks, hks', List.append_assoc]
  rfl

/-- Whatever the reader passes over, it comes to such a place again. -/
theorem of_passes (h : Meets text region u p) (hpass : Passes p q) :
    ∃ region' u', Meets text region' u' q := by
  induction hpass generalizing region u with
  | done => exact ⟨region, u, h⟩
  | char hc _ ih =>
      obtain ⟨region', u', h'⟩ := h.char hc
      exact ih h'
  | string hb _ ih =>
      obtain ⟨region', u', h'⟩ := h.string hb
      exact ih h'

end Meets

/-! ## Offsets -/

theorem length_blankCommas (region region' : Region) (u : List Char) :
    (blankCommas region' (dropComments region u)).length = (kept region u).length := by
  rw [(forall₂_blankCommas region' _).length_eq, ← map_kept, List.length_map]

/-- The number of the character of the stripped text from which it goes on with `p`. -/
def numberOf (text p : List Char) : Nat := (strip text).length - p.length

theorem mem_of_mem_strip {c : Char} (h : c ∈ strip text) (hc : c ≠ ' ') : c ∈ text := by
  obtain ⟨n, hn⟩ := List.mem_iff_getElem?.mp h
  obtain ⟨d, rest, htext, rfl | ⟨-, hspace⟩⟩ := exists_original hn
  · rw [htext]
    simp
  · exact absurd hspace hc

/-- Where the reader comes to a string, the text has the same string. -/
theorem exists_front_of_passes {b : List Char} (hb : StringBody b)
    (h : Passes (strip text) ('"' :: (b ++ '"' :: p))) :
    ∃ s, text = front text (numberOf text ('"' :: (b ++ '"' :: p))) ++ '"' :: (b ++ '"' :: s) := by
  obtain ⟨region, u, hmeets⟩ := (meets_strip text).of_passes h
  obtain ⟨ks, s, hks, hp⟩ := hmeets.exists_string hb
  have hnumber : numberOf text ('"' :: (b ++ '"' :: p)) = ks.length := by
    rw [numberOf, strip, length_blankCommas, hks, hp, List.length_append, List.length_cons,
      List.length_cons, length_blankCommas]
    omega
  have hn : (kept .code text)[ks.length]? = some ('"', b ++ '"' :: s) := by simp [hks]
  rw [hnumber]
  exact ⟨s, (front_of_some hn).1⟩

theorem Keeps.length_lt {ks : List (Char × List Char)} (h : Keeps text ks) :
    ∀ k ∈ ks, k.2.length < text.length := by
  induction h with
  | nil => nofun
  | keep _ ih =>
      refine List.forall_mem_cons.mpr ⟨Nat.lt_succ_self _, fun k hk => ?_⟩
      exact Nat.lt_succ_of_lt (ih k hk)
  | drop _ _ ih => exact fun k hk => Nat.lt_succ_of_lt (ih k hk)

theorem Keeps.pairwise {ks : List (Char × List Char)} (h : Keeps text ks) :
    ks.Pairwise fun k l => l.2.length < k.2.length := by
  induction h with
  | nil => exact .nil
  | keep h ih => exact .cons h.length_lt ih
  | drop _ _ ih => exact ih

/-- Originals stand in the order of the characters. -/
theorem front_mono {m n : Nat} (hle : m ≤ n) : front text m <+: front text n := by
  rcases Nat.eq_or_lt_of_le hle with rfl | hlt
  · exact List.prefix_refl _
  by_cases hn : n < (kept .code text).length
  · have hm : m < (kept .code text).length := Nat.lt_trans hlt hn
    have hlength := List.pairwise_iff_getElem.mp (keeps_kept .code text).pairwise m n hm hn hlt
    rw [front, front, List.getElem?_eq_getElem hm, List.getElem?_eq_getElem hn]
    refine List.take_prefix_take_left (Nat.sub_le_sub_right (Nat.sub_le_sub_left ?_ _) _)
    exact Nat.le_of_lt hlength
  · rw [show front text n = text by rw [front, List.getElem?_eq_none (Nat.le_of_not_lt hn)]]
    exact front_prefix text m

end ScriptWorks.Jsonc

import Mathlib.Data.List.Forall2
import ScriptWorks.Proofs.Json.Canonical
import ScriptWorks.Proofs.Json.Token
import ScriptWorks.Proofs.Text.Basic

/-!
# Reading what was written

The pretty text of a value is read back as that value with the members of its objects in order, unless
it is nested too deep, holds a number that is not read back, or an object whose first key is the one of
embedded texts.
-/

namespace ScriptWorks

/-! ## Tables -/

namespace Dict

variable {α : Type} {d : Dict α}

theorem insert_of_last {k : String} (h : ∀ q ∈ keys d, q < k) (v : α) :
    insert d k v = d ++ [(k, v)] := by
  induction d with
  | nil => rfl
  | cons p d ih =>
      rw [keys_cons, List.forall_mem_cons] at h
      unfold insert
      rw [if_neg (String.ne_of_lt h.1).symm, if_neg (String.lt_asymm h.1), ih h.2]
      rfl

/-- A table in order that goes on with another one is made by storing the entries of that one. -/
theorem overlay_of_sorted {e : Dict α} (h : Sorted (d ++ e)) : overlay d e = d ++ e := by
  induction e generalizing d with
  | nil => exact (List.append_nil d).symm
  | cons p e ih =>
      have hlast : ∀ q ∈ keys d, q < p.1 := by
        unfold Sorted keys at h
        rw [List.map_append, List.pairwise_append] at h
        exact fun q hq => h.2.2 q hq p.1 List.mem_cons_self
      have step : overlay d (p :: e) = overlay (insert d p.1 p.2) e := rfl
      rw [step, insert_of_last hlast, ih (by rwa [List.append_assoc]), List.append_assoc]
      rfl

end Dict

namespace Json

/-! ## Strings -/

/-- The forms of a character inside a string: a letter, a number, or the character itself. -/
theorem writeChar_cases (c : Char) :
    (∃ e, e ≠ 'u' ∧ escaped? e = some c ∧ writeChar c = ['\\', e]) ∨
    (c.toNat < 32 ∧ writeChar c =
      ['\\', 'u', '0', '0', hexDigit (c.toNat / 16), hexDigit (c.toNat % 16)]) ∨
    (c ≠ '"' ∧ c ≠ '\\' ∧ ¬ c.val < 0x20 ∧ writeChar c = [c]) := by
  by_cases hletter : c ∈ ['"', '\\', '\x08', '\x0c', '\n', '\r', '\t']
  · refine .inl ?_
    simp only [List.mem_cons, List.not_mem_nil, or_false] at hletter
    rcases hletter with rfl | rfl | rfl | rfl | rfl | rfl | rfl
    · exact ⟨'"', by decide, rfl, rfl⟩
    · exact ⟨'\\', by decide, rfl, rfl⟩
    · exact ⟨'b', by decide, rfl, rfl⟩
    · exact ⟨'f', by decide, rfl, rfl⟩
    · exact ⟨'n', by decide, rfl, rfl⟩
    · exact ⟨'r', by decide, rfl, rfl⟩
    · exact ⟨'t', by decide, rfl, rfl⟩
  · simp only [List.mem_cons, List.not_mem_nil, or_false, not_or] at hletter
    obtain ⟨hquote, hslash, hback, hform, hline, hreturn, htab⟩ := hletter
    refine .inr ?_
    unfold writeChar
    rw [if_neg hquote, if_neg hslash, if_neg hback, if_neg hform, if_neg hline, if_neg hreturn,
      if_neg htab]
    by_cases hcontrol : c.toNat < 0x20
    · exact .inl ⟨hcontrol, if_pos hcontrol⟩
    · exact .inr ⟨hquote, hslash, fun h => hcontrol (UInt32.lt_iff_toNat_lt.mp h), if_neg hcontrol⟩

/-- A character is read back in a string. -/
theorem readsChars_writeChar (c : Char) {s x r : List Char} (h : ReadsChars s x r) :
    ReadsChars (writeChar c ++ s) (c :: x) r := by
  rcases writeChar_cases c with ⟨e, hu, he, hc⟩ | ⟨hcontrol, hc⟩ | ⟨hquote, hslash, hplain, hc⟩
  · rw [hc]
    exact .escape hu he h
  · have hunit : ∀ n < 32, hexUnit? '0' '0' (hexDigit (n / 16)) (hexDigit (n % 16)) = some n ∧
        ¬ isLowSurrogate n ∧ ¬ isHighSurrogate n := by decide
    obtain ⟨hn, hlow, hhigh⟩ := hunit c.toNat hcontrol
    have hread := ReadsChars.unit hn hlow hhigh h
    rw [Char.ofNat_toNat] at hread
    rw [hc]
    exact hread
  · rw [hc]
    exact .char hquote hslash hplain h

/-- A string is read back after its opening quote. -/
theorem readString_writeString (x : String) (r : List Char) :
    readString (x.toList.flatMap writeChar ++ '"' :: r) = .ok (x, r) := by
  have hchars : ∀ cs : List Char, ReadsChars (cs.flatMap writeChar ++ '"' :: r) cs r := by
    intro cs
    induction cs with
    | nil => exact .close
    | cons c cs ih =>
        rw [List.flatMap_cons, List.append_assoc]
        exact readsChars_writeChar c ih
  exact readString_eq_ok_iff.mpr ⟨x.toList, hchars x.toList, String.ofList_toList.symm⟩

/-! ## Numbers -/

theorem isWord_repr (n : Nat) : IsWord (Nat.repr n).toList :=
  fun _ hc => isWordChar_of_isDigit (Text.isDigit_of_mem_repr hc)

theorem IsWord.append {w x : List Char} (hw : IsWord w) (hx : IsWord x) : IsWord (w ++ x) :=
  fun c hc => (List.mem_append.mp hc).elim (hw c) (hx c)

theorem IsWord.sublist {w w' : List Char} (hw : IsWord w) (h : w'.Sublist w) : IsWord w' :=
  fun c hc => hw c (h.subset hc)

theorem isWord_zeros (n : Nat) : IsWord (List.replicate n '0') := by
  intro c hc
  rw [List.eq_of_mem_replicate hc]
  rfl

theorem isWord_positional {digits : List Char} (h : IsWord digits) (point : Int) :
    IsWord (Decimal.positional digits point) := by
  unfold Decimal.positional
  split
  · exact .append (w := ['0', '.'] ++ _) (.append (by decide) (isWord_zeros _)) h
  · split
    · exact .append (.append h (isWord_zeros _)) (by decide)
    · exact .append (x := ['.'] ++ _) (h.sublist (List.take_sublist _ _))
        (.append (by decide) (h.sublist (List.drop_sublist _ _)))

theorem isWord_scientific {digits : List Char} (h : IsWord digits) (point : Int) :
    IsWord (Decimal.scientific digits point) := by
  have hsign : IsWord ['e', if point - 1 < 0 then '-' else '+'] := by split <;> decide
  refine .append (x := ['e', _] ++ _) ?_ (.append hsign (isWord_repr _))
  split
  · exact h
  · exact h
  · obtain ⟨hd, hds⟩ := List.forall_mem_cons.mp h
    exact List.forall_mem_cons.mpr ⟨hd, List.forall_mem_cons.mpr ⟨rfl, hds⟩⟩

/-- A number is written as one word. -/
theorem isWord_writeNumber (n : Number) : IsWord (writeNumber n) := by
  cases n with
  | int n =>
      cases n with
      | ofNat n => exact isWord_repr n
      | negSucc n =>
          show IsWord (("-" ++ Nat.repr (n + 1)).toList)
          rw [String.toList_append]
          exact .append (by decide) (isWord_repr _)
  | float x =>
      have hdigits : IsWord x.magnitude.shortestDigits.1 := isWord_repr _
      unfold writeNumber writeFloat
      dsimp only
      refine .append (by split <;> decide) ?_
      split
      · exact isWord_positional hdigits _
      · exact isWord_scientific hdigits _

theorem skipSpace_word {w : List Char} (hw : IsWord w) : skipSpace w = w := by
  cases w with
  | nil => rfl
  | cons c w => exact skipSpace_of_not (isSpace_eq_false_of_isWordChar (hw c List.mem_cons_self)) w

/-- A number that is read back from its text is read back in front of all that ends a word. -/
theorem readValue_writeNumber {n : Number} (h : parse (compact (.num n)) = .ok (.num n))
    {r : List Char} (hr : EndsWord r) (fuel depth : Nat) :
    readValue (fuel + 1) depth (writeNumber n ++ r) = .ok (.num n, r) := by
  have hword := isWord_writeNumber n
  obtain ⟨rest, hvalue, hrest⟩ := readWhole_eq_ok_iff.mp (parse_eq_ok_iff.mp h)
  rw [show (compact (.num n)).toList = writeNumber n from String.toList_ofList] at hvalue
  -- Nothing of the text is left, as it is all one word.
  have hnil : ∀ {w}, IsWord (w ++ rest) → rest = [] := fun hw => by
    rw [← skipSpace_word fun c hc => hw c (List.mem_append_right _ hc), hrest]
  refine readValue_eq_ok_iff.mpr ?_
  cases readValue_eq_ok_iff.mp hvalue with
  | keyword _ hk => cases hk
  | negative hcs hn =>
      rw [skipSpace_word hword] at hcs
      obtain ⟨w, hw, rfl, hsame⟩ := Numeral.readsWord_read true hn
      rw [hcs] at hword ⊢
      rw [hnil fun c hc => hword c (List.mem_cons_of_mem _ hc), List.append_nil]
      exact .negative (skipSpace_of_not rfl _) (hsame r hr)
  | @numeral c s _ _ hcs hc hn =>
      rw [skipSpace_word hword] at hcs
      obtain ⟨w, hw, hs, hsame⟩ := Numeral.readsWord_read false hn
      rw [hcs] at hword ⊢
      rw [hnil (hs ▸ hword), List.append_nil] at hs
      have hspace : isSpace c = false :=
        isSpace_eq_false_of_isWordChar (hword c List.mem_cons_self)
      rw [← hs] at hsame
      exact .numeral (skipSpace_of_not hspace _) hc (hsame r hr)
  | embedded hcs =>
      rw [skipSpace_word hword] at hcs
      rw [hcs] at hword
      exact absurd (hword _ List.mem_cons_self) (by decide)

/-- Digits are collected as long as their number is a word. -/
theorem Numeral.collect_eq {w : Nat} {cs : List Char} (h : Nat.ofDigitChars 10 cs w ≤ maxWord) :
    collect w cs = (Nat.ofDigitChars 10 cs w, []) := by
  induction cs generalizing w with
  | nil => rfl
  | cons c cs ih =>
      have hnext : w * 10 + digitValue c = 10 * w + (c.toNat - '0'.toNat) := by
        rw [Nat.mul_comm]
        rfl
      have hle : 10 * w + (c.toNat - '0'.toNat) ≤
          Nat.ofDigitChars 10 cs (10 * w + (c.toNat - '0'.toNat)) := by
        rw [Nat.ofDigitChars_eq_ofDigitChars_zero]
        exact Nat.le_add_right_of_le (Nat.le_mul_of_pos_left _ (Nat.pow_pos (by decide)))
      rw [Nat.ofDigitChars_cons] at h ⊢
      unfold collect
      dsimp only
      rw [hnext, if_pos (hle.trans h), ih h]

theorem Numeral.read_repr {n : Nat} (h : n ≤ maxWord) :
    read false (Nat.repr n).toList = .ok (.int n, []) := by
  have hdigits : ∀ c ∈ (Nat.repr n).toList, c.isDigit = true := fun _ => Text.isDigit_of_mem_repr
  have hvalue := Text.ofDigitChars_repr n
  have hcollect := collect_eq (hvalue.symm ▸ h)
  rw [hvalue] at hcollect
  obtain ⟨c, cs, htext, hzero⟩ := Text.exists_repr_eq_cons n
  have hfirst : ¬ (c = '0' ∧ cs.head?.any Char.isDigit = true) := by
    rintro ⟨rfl, hany⟩
    rw [hzero rfl] at htext
    cases htext
    cases hany
  rw [htext] at hdigits hcollect ⊢
  unfold read
  dsimp only
  rw [if_neg (by simp [hdigits c List.mem_cons_self]), if_neg hfirst,
    List.takeWhile_eq_self_iff.mpr hdigits, List.dropWhile_eq_nil_iff.mpr hdigits, hcollect]
  rfl

/-- A natural number of 64 bits is read back. -/
theorem parse_compact_ofNat {n : Nat} (h : n ≤ Numeral.maxWord) :
    parse (compact (.ofNat n)) = .ok (.ofNat n) := by
  have hread := Numeral.read_repr h
  obtain ⟨c, cs, htext, -⟩ := Text.exists_repr_eq_cons n
  have hdigit : c.isDigit = true := Text.isDigit_of_mem_repr (htext ▸ List.mem_cons_self)
  have hspace : skipSpace (Nat.repr n).toList = c :: cs := by
    rw [skipSpace_word (isWord_repr n), htext]
  rw [htext] at hread
  rw [parse_eq_ok_iff, show (compact (.ofNat n)).toList = (Nat.repr n).toList from String.toList_ofList]
  exact readWhole_eq_ok_iff.mpr ⟨[], readValue_eq_ok_iff.mpr (.numeral hspace hdigit hread), rfl⟩

/-! ## Items and members -/

theorem skipSpace_newline (level : Nat) (s : List Char) :
    skipSpace (newline level ++ s) = skipSpace s := by
  have hspaces : ∀ n, skipSpace (List.replicate n ' ' ++ s) = skipSpace s := by
    intro n
    induction n with
    | zero => rfl
    | succ n ih => rwa [List.replicate_succ, List.cons_append, skipSpace_space rfl]
  exact (skipSpace_space rfl _).trans (hspaces _)

theorem skipSpace_newline_cons (level : Nat) {c : Char} (hc : isSpace c = false) (s : List Char) :
    skipSpace (newline level ++ c :: s) = c :: s :=
  (skipSpace_newline level _).trans (skipSpace_of_not hc s)

/-- The pretty text of `v` is read as `w` where at most `depth` containers may be opened. -/
structure ReadsAs (depth : Nat) (v w : Json) : Prop where
  head (level : Nat) : ∃ c s, writePretty level v = c :: s ∧ isSpace c = false ∧ c ≠ ']'
  value {level fuel : Nat} {r : List Char} : EndsWord r → 2 * (writePretty level v).length < fuel →
    readValue fuel (depth + 1) (writePretty level v ++ r) = .ok (w, r)

/-- The same for a member, whose key is read as it is. -/
def ReadsMemberAs (depth : Nat) (m n : String × Json) : Prop := m.1 = n.1 ∧ ReadsAs depth m.2 n.2

namespace ReadsAs

variable {depth : Nat} {v w : Json}

/-- On a new line the value comes next. -/
theorem exists_next (h : ReadsAs depth v w) (level : Nat) (s : List Char) :
    ∃ c s', writePretty level v ++ s = c :: s' ∧ c ≠ ']' ∧
      skipSpace (newline level ++ (writePretty level v ++ s)) = c :: s' := by
  obtain ⟨c, s', htext, hspace, hclose⟩ := h.head level
  refine ⟨c, s' ++ s, by rw [htext]; rfl, hclose, ?_⟩
  rw [htext]
  exact skipSpace_newline_cons level hspace _

theorem items (level : Nat) {vs ws : List Json} (hv : ReadsAs depth v w)
    (hvs : List.Forall₂ (ReadsAs depth) vs ws) (fuel : Nat)
    (hfuel : 2 * ((writePretty level v).length + (writePrettyItems level vs).length) + 1 < fuel)
    {t r : List Char} (ht : skipSpace t = ']' :: r) :
    readItems fuel (depth + 1) (writePretty level v ++ (writePrettyItems level vs ++ t)) =
      .ok (w :: ws, r) := by
  obtain ⟨fuel, rfl⟩ := Nat.exists_eq_add_one_of_ne_zero (Nat.ne_zero_of_lt hfuel)
  rw [readItems_eq_ok_iff]
  induction hvs generalizing v w fuel with
  | nil => exact .last (hv.value (.of_skipSpace (.skipSpace_of_cons ht rfl)) (by omega)) ht
  | @cons u _ vs _ hu _ ih =>
      have htext : writePrettyItems level (u :: vs) ++ t =
          ',' :: (newline level ++ (writePretty level u ++ (writePrettyItems level vs ++ t))) := by
        simp [writePrettyItems]
      have hlength : (writePrettyItems level (u :: vs)).length =
          (writePretty level u).length + (writePrettyItems level vs).length +
            (newline level).length + 1 := by
        simp [writePrettyItems]
        omega
      obtain ⟨fuel, rfl⟩ : ∃ n, fuel = n + 1 := ⟨fuel - 1, by omega⟩
      obtain ⟨c, s, hc, hclose, hnext⟩ :=
        hu.exists_next level (writePrettyItems level vs ++ t)
      have hrest := readItems_eq_ok_iff.mpr (ih hu fuel (by omega))
      rw [htext]
      refine .more (hv.value ?_ (by omega)) (skipSpace_of_not rfl _) hnext hclose (hc ▸ hrest)
      rintro d ⟨⟩
      rfl

/-- A value after a blank. -/
theorem blank (h : ReadsAs depth v w) {level fuel : Nat} {r : List Char} (hr : EndsWord r)
    (hfuel : 2 * (writePretty level v).length < fuel) :
    readValue fuel (depth + 1) (' ' :: (writePretty level v ++ r)) = .ok (w, r) := by
  obtain ⟨fuel, rfl⟩ := Nat.exists_eq_add_one_of_ne_zero (Nat.ne_zero_of_lt hfuel)
  have hv := h.value hr hfuel
  unfold readValue at hv ⊢
  rwa [skipSpace_space rfl]

/-- Members are stored one after another, in whatever order they come. -/
theorem members (level : Nat) (k : String) {ms ns : Dict Json} (hv : ReadsAs depth v w)
    (hms : List.Forall₂ (ReadsMemberAs depth) ms ns) (fuel : Nat) (hfuel :
      2 * ((writePretty level v).length + (writePrettyMembers level ms).length) + 1 < fuel)
    {t r : List Char} (ht : skipSpace t = '}' :: r) (before : Dict Json) :
    readMembers fuel (depth + 1) before k
      (':' :: ' ' :: (writePretty level v ++ (writePrettyMembers level ms ++ t))) =
        .ok (Dict.overlay before ((k, w) :: ns), r) := by
  obtain ⟨fuel, rfl⟩ := Nat.exists_eq_add_one_of_ne_zero (Nat.ne_zero_of_lt hfuel)
  have hcolon : ∀ s : List Char, skipSpace (':' :: s) = ':' :: s := skipSpace_of_not rfl
  rw [readMembers_eq_ok_iff]
  induction hms generalizing k v w fuel before with
  | nil => exact .last (hcolon _) (hv.blank (.of_skipSpace (.skipSpace_of_cons ht rfl)) (by omega)) ht
  | @cons m n ms _ hm _ ih =>
      obtain ⟨k', u⟩ := m
      obtain ⟨q, u'⟩ := n
      obtain ⟨(rfl : k' = q), (hu : ReadsAs depth u u')⟩ := hm
      have htext : writePrettyMembers level ((k', u) :: ms) ++ t =
          ',' :: (newline level ++ '"' :: (k'.toList.flatMap writeChar ++
            '"' :: ':' :: ' ' :: (writePretty level u ++ (writePrettyMembers level ms ++ t)))) := by
        simp [writePrettyMembers, writeString]
      have hlength : (writePretty level u).length + (writePrettyMembers level ms).length <
          (writePrettyMembers level ((k', u) :: ms)).length := by
        simp [writePrettyMembers]
        omega
      obtain ⟨fuel, rfl⟩ : ∃ n, fuel = n + 1 := ⟨fuel - 1, by omega⟩
      have hrest := readMembers_eq_ok_iff.mpr (ih k' hu (Dict.insert before k w) fuel (by omega))
      rw [htext]
      refine .more (hcolon _) (hv.blank ?_ (by omega)) (skipSpace_of_not rfl _)
        (skipSpace_newline_cons level rfl _) (readString_writeString k' _) hrest
      rintro d ⟨⟩
      rfl

/-! ## Values -/

/-- A value whose text starts with a character that no blank and no closing bracket is, and that is read
from there with enough fuel. -/
theorem of_ways {c : Char} (hspace : isSpace c = false) (hclose : c ≠ ']')
    (h : ∀ level, ∃ s, writePretty level v = c :: s ∧ ∀ fuel r, EndsWord r →
      2 * s.length ≤ fuel → ReadsValue fuel (depth + 1) (c :: (s ++ r)) w r) : ReadsAs depth v w := by
  constructor
  · intro level
    obtain ⟨s, hs, -⟩ := h level
    exact ⟨c, s, hs, hspace, hclose⟩
  · intro level fuel r hr hfuel
    obtain ⟨s, hs, hread⟩ := h level
    rw [hs, List.length_cons] at hfuel
    obtain ⟨fuel, rfl⟩ := Nat.exists_eq_add_one_of_ne_zero (Nat.ne_zero_of_lt hfuel)
    rw [hs]
    exact (hread fuel r hr (by omega)).eq_ok

theorem keyword {c : Char} {ks : List Char} (hk : Keyword c ks v)
    (hv : ∀ level, writePretty level v = c :: ks) : ReadsAs depth v v := by
  have hc := hk.isWord c List.mem_cons_self
  refine of_ways (isSpace_eq_false_of_isWordChar hc) (ne_of_class hc rfl) fun level => ?_
  refine ⟨ks, hv level, fun fuel r _ _ => .keyword (skipSpace_of_not ?_ _) hk⟩
  exact isSpace_eq_false_of_isWordChar hc

theorem num {n : Number} (hn : parse (compact (.num n)) = .ok (.num n)) :
    ReadsAs depth (.num n) (.num n) := by
  have hread := fun r hr fuel => readValue_writeNumber hn (r := r) hr fuel (depth + 1)
  cases hw : writeNumber n with
  | nil =>
      have hempty := hread [] nofun 0
      rw [hw] at hempty
      cases hempty
  | cons c w =>
      have hc := isWord_writeNumber n c (by rw [hw]; exact List.mem_cons_self)
      refine of_ways (isSpace_eq_false_of_isWordChar hc) (ne_of_class hc rfl) fun level => ?_
      refine ⟨w, hw, fun fuel r hr _ => readValue_eq_ok_iff.mp ?_⟩
      rw [← List.cons_append, ← hw]
      exact hread r hr fuel

theorem str (x : String) : ReadsAs depth (.str x) (.str x) := by
  refine of_ways (c := '"') rfl (by decide) fun level => ?_
  refine ⟨x.toList.flatMap writeChar ++ ['"'], rfl, fun fuel r _ _ => ?_⟩
  rw [List.append_assoc]
  exact .string (skipSpace_of_not rfl _) (readString_writeString x r)

theorem arr {vs ws : List Json} (h : List.Forall₂ (ReadsAs depth) vs ws) :
    ReadsAs (depth + 1) (.arr vs) (.arr ws) := by
  refine of_ways (c := '[') rfl (by decide) fun level => ?_
  cases h with
  | nil => exact ⟨[']'], rfl, fun fuel r _ _ =>
      .emptyList (skipSpace_of_not rfl _) (by omega) (skipSpace_of_not rfl r)⟩
  | @cons v _ vs _ hv hvs =>
      refine ⟨newline (level + 1) ++ (writePretty (level + 1) v ++ (writePrettyItems (level + 1) vs ++
        (newline level ++ [']']))), by simp [writePretty], fun fuel r _ hfuel => ?_⟩
      have hend := skipSpace_newline_cons level (c := ']') rfl r
      obtain ⟨c, s, hc, hclose, hnext⟩ := hv.exists_next (level + 1)
        (writePrettyItems (level + 1) vs ++ (newline level ++ ']' :: r))
      have hitems := ReadsAs.items (level + 1) hv hvs fuel
        (by simp only [List.length_append, List.length_cons] at hfuel; omega) hend
      simp only [List.append_assoc, List.cons_append, List.nil_append]
      exact .list (skipSpace_of_not rfl _) (by omega) hnext hclose (hc ▸ hitems)

/-- The members of an object are put in order when they are read. -/
theorem obj {ms ns : List (String × Json)} (h : List.Forall₂ (ReadsMemberAs depth) ms ns)
    (hfirst : ∀ m ∈ ms.head?, m.1 ≠ embeddedKey) :
    ReadsAs (depth + 1) (.obj ms) (.ofMembers ns) := by
  refine of_ways (c := '{') rfl (by decide) fun level => ?_
  cases h with
  | nil => exact ⟨['}'], rfl, fun fuel r _ _ =>
      .emptyObject (skipSpace_of_not rfl _) (by omega) (skipSpace_of_not rfl r)⟩
  | @cons m n ms _ hm hms =>
      obtain ⟨k, v⟩ := m
      obtain ⟨q, w⟩ := n
      obtain ⟨(rfl : k = q), (hv : ReadsAs depth v w)⟩ := hm
      refine ⟨newline (level + 1) ++ '"' :: (k.toList.flatMap writeChar ++ '"' :: ':' :: ' ' ::
        (writePretty (level + 1) v ++ (writePrettyMembers (level + 1) ms ++
          (newline level ++ ['}'])))), by simp [writePretty, writeString], fun fuel r _ hfuel => ?_⟩
      have hend := skipSpace_newline_cons level (c := '}') rfl r
      have hmembers := ReadsAs.members (level + 1) k hv hms fuel
        (by simp only [List.length_append, List.length_cons] at hfuel; omega) hend []
      simp only [List.append_assoc, List.cons_append, List.nil_append]
      exact .object (skipSpace_of_not rfl _) (by omega) (skipSpace_newline_cons _ rfl _)
        (readString_writeString k _) (hfirst (k, v) rfl) hmembers

end ReadsAs

/-- A value that its text stands for: at most `depth` containers lie in one another, every number is
read back, and objects hold their members in order, with no first key that announces an embedded
text. -/
inductive Ordinary : Nat → Json → Prop
  | null {depth} : Ordinary depth .null
  | bool {depth b} : Ordinary depth (.bool b)
  | num {depth n} : parse (compact (.num n)) = .ok (.num n) → Ordinary depth (.num n)
  | str {depth s} : Ordinary depth (.str s)
  | arr {depth items} : (∀ v ∈ items, Ordinary depth v) → Ordinary (depth + 1) (.arr items)
  | obj {depth} {members : Dict Json} : members.Sorted → (∀ m ∈ members, Ordinary depth m.2) →
      (∀ m ∈ members.head?, m.1 ≠ embeddedKey) → Ordinary (depth + 1) (.obj members)

theorem Ordinary.readsAs {depth : Nat} {v : Json} (h : Ordinary depth v) : ReadsAs depth v v := by
  induction h with
  | null => exact .keyword .null fun _ => rfl
  | @bool _ b =>
      cases b with
      | true => exact .keyword .true fun _ => rfl
      | false => exact .keyword .false fun _ => rfl
  | num hn => exact .num hn
  | str => exact .str _
  | arr _ ih => exact .arr (List.forall₂_same.mpr ih)
  | @obj _ members hsorted _ hfirst ih =>
      have hread := ReadsAs.obj (List.forall₂_same.mpr fun m hm => ⟨rfl, ih m hm⟩) hfirst
      rwa [show ofMembers members = .obj members from
        congrArg Json.obj (Dict.overlay_of_sorted (d := []) hsorted)] at hread

/-- The pretty text of an ordinary value, with a line end, has that value. -/
theorem Ordinary.readText_pretty {v : Json} (h : Ordinary (nestingLimit - 1) v) :
    readText (writePretty 0 v ++ ['\n']) = .ok v := by
  have hend : EndsWord ['\n'] := by decide
  refine readWhole_eq_ok_iff.mpr ⟨['\n'], h.readsAs.value hend ?_, rfl⟩
  rw [List.length_append]
  omega

/-- The pretty text on any level is a whole JSON text of what the value is read as. -/
theorem ReadsAs.parse_writePretty {v w : Json} (h : ReadsAs (nestingLimit - 1) v w) (level : Nat) :
    parse (String.ofList (writePretty level v)) = .ok w := by
  have hvalue : ∀ fuel, 2 * (writePretty level v).length < fuel →
      readValue fuel nestingLimit (writePretty level v) = .ok (w, []) := by
    intro fuel hfuel
    have hread := h.value (r := []) nofun hfuel
    rwa [List.append_nil] at hread
  rw [parse_eq_ok_iff, String.toList_ofList]
  exact readWhole_eq_ok_iff.mpr ⟨[], hvalue _ (by omega), rfl⟩

end Json

end ScriptWorks

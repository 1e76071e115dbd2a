import ScriptWorks.Proofs.Json.Reading

/-!
# The tokens of JSON texts

Brackets, commas and colons are tokens of one character. Keywords and numerals are words: the longest
runs of characters that may stand in one. A string goes up to the first quote that is not escaped.
What a token stands for does not depend on the text after it.
-/

namespace ScriptWorks.Json

/-- A character of a keyword or a numeral. -/
def isWordChar (c : Char) : Bool := c.isAlphanum || c = '-' || c = '+' || c = '.'

def IsWord (w : List Char) : Prop := ∀ c ∈ w, isWordChar c = true

instance (w : List Char) : Decidable (IsWord w) := List.decidableBAll _ w

/-- The text does not go on with a word that stands before it. -/
def EndsWord (cs : List Char) : Prop := ∀ c ∈ cs.head?, isWordChar c = false

instance (cs : List Char) : Decidable (EndsWord cs) := Option.decidableForallMem cs.head?

/-- What stands between the quotes of a string. -/
inductive StringBody : List Char → Prop
  | nil : StringBody []
  | char {c b} : c ≠ '"' → c ≠ '\\' → StringBody b → StringBody (c :: b)
  | escape {c b} : StringBody b → StringBody ('\\' :: c :: b)

/-! ## Words -/

theorem isWordChar_of_isDigit {c : Char} (h : c.isDigit = true) : isWordChar c = true := by
  simp [isWordChar, Char.isAlphanum, h]

theorem Keyword.isWord {c : Char} {ks : List Char} {v : Json} (h : Keyword c ks v) :
    IsWord (c :: ks) := by
  cases h <;> decide

theorem takeWhile_word {w r : List Char} (hw : IsWord w) (hr : EndsWord r) :
    (w ++ r).takeWhile isWordChar = w := by
  rw [List.takeWhile_append_of_pos hw]
  cases r with
  | nil => simp
  | cons c r => rw [List.takeWhile_cons_of_neg (by simp [hr c rfl]), List.append_nil]

/-- A text splits in one way into a word and what ends it. -/
theorem word_eq_of_append_eq {w w' r r' : List Char} (hw : IsWord w) (hw' : IsWord w')
    (hr : EndsWord r) (hr' : EndsWord r') (h : w ++ r = w' ++ r') : w = w' ∧ r = r' := by
  have hsame : w = w' := by rw [← takeWhile_word hw hr, h, takeWhile_word hw' hr']
  rw [hsame] at h
  exact ⟨hsame, List.append_cancel_left h⟩

/-- What is read of a text is a word, and is read likewise wherever that word ends. -/
def ReadsWord {α : Type} (read : List Char → Reading α) : Prop :=
  ∀ ⦃cs a r⦄, read cs = .ok (a, r) →
    ∃ w, IsWord w ∧ cs = w ++ r ∧ ∀ r', EndsWord r' → read (w ++ r') = .ok (a, r')

/-- What cannot start a text that goes on with a word cannot start one where the word ends. -/
theorem head_append {p : Char → Prop} (hp : ∀ c, p c → isWordChar c = true) {w r r' : List Char}
    (h : ∀ c ∈ (w ++ r).head?, ¬ p c) (hr' : EndsWord r') : ∀ c ∈ (w ++ r').head?, ¬ p c := by
  intro c hc hpc
  cases w with
  | nil =>
      have hword := hp c hpc
      rw [hr' c hc] at hword
      cases hword
  | cons a w => exact h c hc hpc

theorem ne_cons_append {d : Char} (hd : isWordChar d = true) {w r r' : List Char}
    (h : ∀ s, w ++ r = d :: s → False) (hr' : EndsWord r') (s : List Char) : w ++ r' ≠ d :: s := by
  intro hs
  refine head_append (p := (· = d)) (fun c hc => hc ▸ hd) (r := r) ?_ hr' d (by rw [hs]; rfl) rfl
  rintro c hc rfl
  obtain ⟨t, ht⟩ := List.head?_eq_some_iff.mp hc
  exact h t ht

namespace Numeral

theorem isWord_digits (cs : List Char) : IsWord (cs.takeWhile Char.isDigit) :=
  fun c hc => isWordChar_of_isDigit (List.all_eq_true.mp List.all_takeWhile c hc)

/-- The digits at the start of a text do not depend on what follows the word. -/
theorem span_digits {cs w r r' : List Char} (hrest : cs.dropWhile Char.isDigit = w ++ r)
    (hr' : EndsWord r') :
    (cs.takeWhile Char.isDigit ++ (w ++ r')).takeWhile Char.isDigit = cs.takeWhile Char.isDigit ∧
      (cs.takeWhile Char.isDigit ++ (w ++ r')).dropWhile Char.isDigit = w ++ r' := by
  have hdigits : ∀ c ∈ cs.takeWhile Char.isDigit, c.isDigit = true :=
    List.all_eq_true.mp List.all_takeWhile
  have hhead : ∀ c ∈ (w ++ r').head?, ¬ c.isDigit = true := by
    refine head_append (fun c hc => isWordChar_of_isDigit hc) (r := r) ?_ hr'
    intro c hc hd
    have hnot := List.head?_dropWhile_not Char.isDigit cs
    rw [hrest, hc] at hnot
    simp only [hd] at hnot
    cases hnot
  rw [List.takeWhile_append_of_pos hdigits, List.dropWhile_append_of_pos hdigits]
  cases hs : w ++ r' with
  | nil => simp
  | cons c s =>
      have hc := hhead c (by rw [hs]; rfl)
      rw [List.takeWhile_cons_of_neg hc, List.dropWhile_cons_of_neg hc, List.append_nil]
      exact ⟨rfl, rfl⟩

theorem readsWord_float (negative : Bool) (word : Nat) (exponent : Int) :
    ReadsWord (float negative word exponent) := by
  intro cs n r h
  unfold float at h
  cases hm : magnitude? word exponent with
  | none => simp only [hm] at h; cases h
  | some m =>
      simp only [hm] at h
      cases h
      refine ⟨[], List.forall_mem_nil _, rfl, ?_⟩
      intro r' _
      simp [float, hm]

theorem readsWord_integer (negative : Bool) (word : Nat) : ReadsWord (integer negative word) := by
  intro cs n r h
  unfold integer at h ⊢
  cases negative with
  | false =>
      cases h
      exact ⟨[], List.forall_mem_nil _, rfl, fun _ _ => rfl⟩
  | true =>
      rw [if_pos rfl] at h
      simp only [if_true]
      by_cases hw : word = 0 ∨ Nat.pow 2 63 < word
      · simp only [if_pos hw] at h ⊢
        exact readsWord_float true word 0 h
      · simp only [if_neg hw] at h ⊢
        cases h
        exact ⟨[], List.forall_mem_nil _, rfl, fun _ _ => rfl⟩

/-- A reader that sees of a text with a digit at its start only which digits these are, and leaves
the rest to `read`. -/
theorem exists_word_of_digit {c : Char} {s r : List Char} {n : Number}
    {read whole : List Char → Reading Number} (hread : ReadsWord read) (hc : c.isDigit = true)
    (hwhole : ∀ s', (c :: s').takeWhile Char.isDigit = (c :: s).takeWhile Char.isDigit →
      whole (c :: s') = read ((c :: s').dropWhile Char.isDigit))
    (h : whole (c :: s) = .ok (n, r)) :
    ∃ w, IsWord w ∧ c :: s = w ++ r ∧ ∀ r', EndsWord r' → whole (w ++ r') = .ok (n, r') := by
  rw [hwhole s rfl] at h
  obtain ⟨w, hw, hrest, hsame⟩ := hread h
  have hdigits := List.takeWhile_append_dropWhile (p := Char.isDigit) (l := c :: s)
  have hword := isWord_digits (c :: s)
  have hspan := @span_digits (c :: s) w r
  rw [List.takeWhile_cons_of_pos hc, hrest] at hdigits hspan
  rw [List.takeWhile_cons_of_pos hc] at hword
  refine ⟨c :: (s.takeWhile Char.isDigit ++ w), ?_, ?_, ?_⟩
  · intro a ha
    rw [← List.cons_append] at ha
    exact (List.mem_append.mp ha).elim (hword a) (hw a)
  · rw [List.cons_append, List.append_assoc]
    exact hdigits.symm
  · intro r' hr'
    obtain ⟨htake, hdrop⟩ := hspan rfl hr'
    rw [List.cons_append, List.append_assoc, hwhole, ← List.cons_append, hdrop]
    · exact hsame r' hr'
    · rw [← List.cons_append, htake, List.takeWhile_cons_of_pos hc]

theorem readsWord_readSpelled (negative : Bool) (word : Nat) (exponent : Int) (down : Bool) :
    ReadsWord (readSpelled negative word exponent down) := by
  intro cs n r h
  cases cs with
  | nil => cases h
  | cons c s =>
  by_cases hc : c.isDigit = true
  · cases he : exponentDigits 0 ((c :: s).takeWhile Char.isDigit) with
    | ok e =>
        have hread := readsWord_float negative word (if down then exponent - e else exponent + e)
        refine exists_word_of_digit hread hc (fun s' hs => ?_) h
        unfold readSpelled
        simp only [if_pos hc, hs, he]
    | error unread =>
        have hread : ReadsWord fun rest =>
            if word ≠ 0 ∧ !down then stop .numberOutOfRange (unread ++ rest) 0
            else .ok (Number.float ⟨negative, .zero⟩, rest) := by
          intro cs n r h
          split at h
          · cases h
          · rename_i hout
            cases h
            exact ⟨[], List.forall_mem_nil _, rfl, fun _ _ => if_neg hout⟩
        refine exists_word_of_digit hread hc (fun s' hs => ?_) h
        unfold readSpelled
        simp only [if_pos hc, hs, he]
  · unfold readSpelled at h
    simp only [if_neg hc] at h
    cases h

theorem readsWord_readExponent (negative : Bool) (word : Nat) (exponent : Int) :
    ReadsWord (readExponent negative word exponent) := by
  intro cs n r h
  unfold readExponent at h
  split at h
  · obtain ⟨w, hw, rfl, hsame⟩ := readsWord_readSpelled negative word exponent false h
    exact ⟨'+' :: w, List.forall_mem_cons.mpr ⟨rfl, hw⟩, rfl, hsame⟩
  · obtain ⟨w, hw, rfl, hsame⟩ := readsWord_readSpelled negative word exponent true h
    exact ⟨'-' :: w, List.forall_mem_cons.mpr ⟨rfl, hw⟩, rfl, hsame⟩
  · rename_i hplus hminus
    obtain ⟨w, hw, rfl, hsame⟩ := readsWord_readSpelled negative word exponent false h
    refine ⟨w, hw, rfl, ?_⟩
    intro r' hr'
    unfold readExponent
    split
    · rename_i hs
      exact absurd hs (ne_cons_append rfl hplus hr' _)
    · rename_i hs
      exact absurd hs (ne_cons_append rfl hminus hr' _)
    · exact hsame r' hr'

theorem readsWord_readTail (negative : Bool) (word : Nat) (exponent : Int) :
    ReadsWord (readTail negative word exponent) := by
  intro cs n r h
  unfold readTail at h
  split at h
  · obtain ⟨w, hw, rfl, hsame⟩ := readsWord_readExponent negative word exponent h
    exact ⟨'e' :: w, List.forall_mem_cons.mpr ⟨rfl, hw⟩, rfl, hsame⟩
  · obtain ⟨w, hw, rfl, hsame⟩ := readsWord_readExponent negative word exponent h
    exact ⟨'E' :: w, List.forall_mem_cons.mpr ⟨rfl, hw⟩, rfl, hsame⟩
  · rename_i hlower hupper
    obtain ⟨w, hw, rfl, hsame⟩ := readsWord_float negative word exponent h
    refine ⟨w, hw, rfl, ?_⟩
    intro r' hr'
    unfold readTail
    split
    · rename_i hs
      exact absurd hs (ne_cons_append rfl hlower hr' _)
    · rename_i hs
      exact absurd hs (ne_cons_append rfl hupper hr' _)
    · exact hsame r' hr'

theorem readsWord_readFraction (negative : Bool) (word : Nat) (exponent : Int) :
    ReadsWord (readFraction negative word exponent) := by
  intro cs n r h
  cases cs with
  | nil => cases h
  | cons c s =>
      by_cases hc : c.isDigit = true
      · obtain ⟨word', unread, hword⟩ :
            ∃ word' unread, collect word (c :: s.takeWhile Char.isDigit) = (word', unread) :=
          ⟨_, _, rfl⟩
        have hread := readsWord_readTail negative word'
          (exponent - (((c :: s.takeWhile Char.isDigit).length - unread.length : Nat) : Int))
        refine exists_word_of_digit hread hc (fun s' hs => ?_) h
        unfold readFraction
        rw [hs, List.takeWhile_cons_of_pos hc]
        simp only [hword]
      · unfold readFraction at h
        rw [List.takeWhile_cons_of_neg hc, List.dropWhile_cons_of_neg hc] at h
        cases h

theorem readsWord_readAfterDigits (negative : Bool) (word left : Nat) :
    ReadsWord (readAfterDigits negative word left) := by
  intro cs n r h
  unfold readAfterDigits at h
  split at h
  · obtain ⟨w, hw, rfl, hsame⟩ := readsWord_readFraction negative word left h
    exact ⟨'.' :: w, List.forall_mem_cons.mpr ⟨rfl, hw⟩, rfl, hsame⟩
  · obtain ⟨w, hw, rfl, hsame⟩ := readsWord_readExponent negative word left h
    exact ⟨'e' :: w, List.forall_mem_cons.mpr ⟨rfl, hw⟩, rfl, hsame⟩
  · obtain ⟨w, hw, rfl, hsame⟩ := readsWord_readExponent negative word left h
    exact ⟨'E' :: w, List.forall_mem_cons.mpr ⟨rfl, hw⟩, rfl, hsame⟩
  · rename_i hpoint hlower hupper
    have hread : ReadsWord fun cs =>
        if left = 0 then integer negative word cs else float negative word left cs := by
      split
      · exact readsWord_integer negative word
      · exact readsWord_float negative word left
    obtain ⟨w, hw, rfl, hsame⟩ := hread h
    refine ⟨w, hw, rfl, ?_⟩
    intro r' hr'
    unfold readAfterDigits
    split
    · rename_i hs
      exact absurd hs (ne_cons_append rfl hpoint hr' _)
    · rename_i hs
      exact absurd hs (ne_cons_append rfl hlower hr' _)
    · rename_i hs
      exact absurd hs (ne_cons_append rfl hupper hr' _)
    · exact hsame r' hr'

theorem any_head?_isDigit (cs : List Char) :
    cs.head?.any Char.isDigit = !(cs.takeWhile Char.isDigit).isEmpty := by
  cases cs with
  | nil => rfl
  | cons c cs => cases hc : c.isDigit <;> simp [hc]

theorem readsWord_read (negative : Bool) : ReadsWord (read negative) := by
  intro cs n r h
  cases cs with
  | nil => cases h
  | cons c s =>
  by_cases hc : c.isDigit = true
  · by_cases hzero : c = '0' ∧ s.head?.any Char.isDigit = true
    · unfold read at h
      simp only [hc, if_pos hzero] at h
      cases h
    · obtain ⟨word, unread, hword⟩ :
          ∃ word unread, collect 0 ((c :: s).takeWhile Char.isDigit) = (word, unread) :=
        ⟨_, _, rfl⟩
      have hread := readsWord_readAfterDigits negative word unread.length
      refine exists_word_of_digit hread hc (fun s' hs => ?_) h
      have htail := hs
      rw [List.takeWhile_cons_of_pos hc, List.takeWhile_cons_of_pos hc] at htail
      rw [any_head?_isDigit] at hzero
      unfold read
      simp only [any_head?_isDigit, (List.cons.inj htail).2, hs, hword]
      rw [if_neg (by simp [hc]), if_neg hzero]
  · unfold read at h
    simp only [hc] at h
    cases h

/-- A numeral that starts with a digit. -/
theorem exists_word_of_read {negative : Bool} {c : Char} {s r : List Char} {n : Number}
    (hc : c.isDigit = true) (h : read negative (c :: s) = .ok (n, r)) (hr : EndsWord r) :
    ∃ w, IsWord (c :: w) ∧ s = w ++ r ∧
      ∀ r', EndsWord r' → read negative (c :: (w ++ r')) = .ok (n, r') := by
  obtain ⟨w, hw, hs, hsame⟩ := readsWord_read negative h
  cases w with
  | nil =>
      have hnot := hr c (congrArg List.head? hs.symm)
      rw [isWordChar_of_isDigit hc] at hnot
      cases hnot
  | cons a w =>
      obtain ⟨rfl, rfl⟩ := List.cons.inj hs
      exact ⟨w, hw, rfl, hsame⟩

end Numeral

/-! ## Strings -/

theorem hexValue?_ne {c d : Char} {n : Nat} (h : hexValue? c = some n) (hd : hexValue? d = none) :
    c ≠ d := by
  rintro rfl
  rw [h] at hd
  cases hd

/-- Hexadecimal digits may stand in a string. -/
theorem StringBody.hexUnit {a b c d : Char} {n : Nat} (h : hexUnit? a b c d = some n)
    {body : List Char} (hbody : StringBody body) : StringBody (a :: b :: c :: d :: body) := by
  have hchar : ∀ {c : Char} {n : Nat} {b : List Char}, hexValue? c = some n → StringBody b →
      StringBody (c :: b) :=
    fun hc hb => .char (hexValue?_ne hc rfl) (hexValue?_ne hc rfl) hb
  simp only [hexUnit?, Option.bind_eq_bind, Option.bind_eq_some_iff] at h
  obtain ⟨_, ha, _, hb, _, hc, _, hd, -⟩ := h
  exact hchar ha (hchar hb (hchar hc (hchar hd hbody)))

/-- What is read of a string goes up to its closing quote, whatever comes then. -/
theorem ReadsChars.exists_body {cs x r : List Char} (h : ReadsChars cs x r) :
    ∃ b, StringBody b ∧ cs = b ++ '"' :: r ∧ ∀ r', ReadsChars (b ++ '"' :: r') x r' := by
  induction h with
  | close => exact ⟨[], .nil, rfl, fun _ => .close⟩
  | char hquote hslash hcontrol _ ih =>
      obtain ⟨b, hb, rfl, hsame⟩ := ih
      exact ⟨_ :: b, .char hquote hslash hb, rfl,
        fun r' => .char hquote hslash hcontrol (hsame r')⟩
  | escape hu hc _ ih =>
      obtain ⟨b, hb, rfl, hsame⟩ := ih
      exact ⟨'\\' :: _ :: b, .escape hb, rfl, fun r' => .escape hu hc (hsame r')⟩
  | unit hn hlow hhigh _ ih =>
      obtain ⟨b, hb, rfl, hsame⟩ := ih
      exact ⟨'\\' :: 'u' :: _ :: _ :: _ :: _ :: b, .escape (hb.hexUnit hn), rfl,
        fun r' => .unit hn hlow hhigh (hsame r')⟩
  | pair hn hlow hhigh hm hlow' _ ih =>
      obtain ⟨b, hb, rfl, hsame⟩ := ih
      exact ⟨'\\' :: 'u' :: _ :: _ :: _ :: _ :: '\\' :: 'u' :: _ :: _ :: _ :: _ :: b,
        .escape (.hexUnit hn (.escape (hb.hexUnit hm))), rfl,
        fun r' => .pair hn hlow hhigh hm hlow' (hsame r')⟩

/-- A text splits in one way at the closing quote of a string. -/
theorem StringBody.eq_of_append_eq {b b' r r' : List Char} (hb : StringBody b)
    (hb' : StringBody b') (h : b ++ '"' :: r = b' ++ '"' :: r') : b = b' ∧ r = r' := by
  induction hb generalizing b' with
  | nil =>
      cases hb' with
      | nil =>
          cases h
          exact ⟨rfl, rfl⟩
      | char hquote => exact absurd (List.cons.inj h).1.symm hquote
      | escape => cases h
  | char hquote hslash _ ih =>
      cases hb' with
      | nil => exact absurd (List.cons.inj h).1 hquote
      | char _ _ hb' =>
          obtain ⟨rfl, hrest⟩ := List.cons.inj h
          obtain ⟨rfl, rfl⟩ := ih hb' hrest
          exact ⟨rfl, rfl⟩
      | escape => exact absurd (List.cons.inj h).1 hslash
  | escape _ ih =>
      cases hb' with
      | nil => cases h
      | char _ hslash => exact absurd (List.cons.inj h).1.symm hslash
      | escape hb' =>
          obtain ⟨rfl, hrest⟩ := List.cons.inj (List.cons.inj h).2
          obtain ⟨rfl, rfl⟩ := ih hb' hrest
          exact ⟨rfl, rfl⟩

/-! ## Tokens -/

/-- A token and the text after it. A value may end with the token or goes on after it. -/
inductive Token : Bool → List Char → List Char → Prop
  | mark {c t} : c ∈ ['[', '{', ',', ':'] → Token false [c] t
  | close {c t} : c ∈ [']', '}'] → Token true [c] t
  | string {b t} : StringBody b → Token true ('"' :: (b ++ ['"'])) t
  | word {c w t} : IsWord (c :: w) → EndsWord t → Token true (c :: w) t

theorem isSpace_eq_false_of_isWordChar {c : Char} (h : isWordChar c = true) :
    isSpace c = false := by
  have hne : ∀ d : Char, isWordChar d = false → c ≠ d := fun _ => ne_of_class h
  simp [isSpace, hne ' ' rfl, hne '\n' rfl, hne '\t' rfl, hne '\r' rfl]

theorem isWordChar_eq_false_of_isSpace {c : Char} (h : isSpace c = true) :
    isWordChar c = false := by
  cases hc : isWordChar c with
  | false => rfl
  | true => rw [isSpace_eq_false_of_isWordChar hc] at h; cases h

/-- A word ends where white space comes, or what is no word. -/
theorem EndsWord.of_skipSpace {cs : List Char} (h : EndsWord (skipSpace cs)) : EndsWord cs := by
  cases cs with
  | nil => exact nofun
  | cons c cs =>
      rintro _ ⟨⟩
      cases hc : isSpace c with
      | true => exact isWordChar_eq_false_of_isSpace hc
      | false =>
          rw [skipSpace_of_not hc] at h
          exact h c rfl

theorem EndsWord.skipSpace_of_cons {cs r : List Char} {c : Char} (h : skipSpace cs = c :: r)
    (hc : isWordChar c = false) : EndsWord (skipSpace cs) := by
  rw [h]
  rintro _ ⟨⟩
  exact hc

theorem EndsWord.skipSpace_of_nil {cs : List Char} (h : skipSpace cs = []) :
    EndsWord (skipSpace cs) := by
  rw [h]
  exact nofun

/-- A token does not start with white space. -/
theorem Token.skipSpace {ends : Bool} {p t : List Char} (h : Token ends p t) (s : List Char) :
    skipSpace (p ++ s) = p ++ s := by
  cases h with
  | mark hc =>
      refine skipSpace_of_not ?_ s
      revert hc
      simp only [List.mem_cons, List.not_mem_nil, or_false]
      rintro (rfl | rfl | rfl | rfl) <;> rfl
  | close hc =>
      refine skipSpace_of_not ?_ s
      revert hc
      simp only [List.mem_cons, List.not_mem_nil, or_false]
      rintro (rfl | rfl) <;> rfl
  | string => exact skipSpace_of_not rfl _
  | word hw => exact skipSpace_of_not (isSpace_eq_false_of_isWordChar (hw _ List.mem_cons_self)) _

/-- A word is a token only up to its end. -/
theorem Token.endsWord {ends : Bool} {c : Char} {w t : List Char} (h : Token ends (c :: w) t)
    (hc : isWordChar c = true) : EndsWord t := by
  cases h with
  | mark hm | close hm =>
      simp only [List.mem_cons, List.not_mem_nil, or_false] at hm
      rcases hm with rfl | rfl | rfl | rfl <;> cases hc
  | string => cases hc
  | word _ hend => exact hend

theorem Token.ne_nil {ends : Bool} {p t : List Char} (h : Token ends p t) : p ≠ [] := by
  cases h <;> exact List.cons_ne_nil _ _

end ScriptWorks.Json

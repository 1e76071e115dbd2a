import ScriptWorks.Proofs.Jsonc.Insertion

/-!
# White space for comments and trailing commas

A text with comments and trailing commas stands for the text with white space in their places. If what
`strip` leaves of a text consists of tokens, it is the text that the given one stands for, up to white
space between the tokens and with three liberties that a strict reader does not take.
-/

namespace ScriptWorks.Jsonc

open Json

/-! ## Comments and commas as white space -/

/-- How a reader takes the rules for comments and trailing commas. -/
inductive Manner where
  | strict
  | lax

/-- What comes before a place in a text. At the start it is as after a separator. -/
inductive Before where
  | separator
  | opening
  | word
  | value

/-- White space ends a word. -/
def Before.parted : Before → Before
  | .word => .value
  | b => b

/-- The white space that stands for a comment: a space, and the line ends of the comment. -/
def blank (comment : List Char) : List Char := ' ' :: comment.filter (· = '\n')

/-- The second text is the first with white space for all comments and for trailing commas. A comma is a
trailing one if a value has just ended and the next token is a closing bracket. What a lax reader adds
is a comma between two brackets, a comment that is not closed and a comment inside a word. -/
inductive Blanked : Manner → Before → List Char → List Char → Prop
  | nil {m b} : Blanked m b [] []
  | space {m b c u t} : isSpace c = true → Blanked m b.parted u t → Blanked m b (c :: u) (c :: t)
  | opening {m b c u t} : c ∈ ['[', '{'] → Blanked m .opening u t → Blanked m b (c :: u) (c :: t)
  | closing {m b c u t} : c ∈ [']', '}'] → Blanked m .value u t → Blanked m b (c :: u) (c :: t)
  | separator {m b c u t} : c ∈ [',', ':'] → Blanked m .separator u t →
      Blanked m b (c :: u) (c :: t)
  | string {m b s u t} : StringBody s → Blanked m .value u t →
      Blanked m b ('"' :: (s ++ '"' :: u)) ('"' :: (s ++ '"' :: t))
  | word {m b c u t} : isWordChar c = true → Blanked m .word u t → Blanked m b (c :: u) (c :: t)
  | line {m b s u t} : '\n' ∉ s → (∀ c ∈ u.head?, c = '\n') → Blanked m b.parted u t →
      Blanked m b ('/' :: '/' :: (s ++ u)) (blank s ++ t)
  | block {m b s u t} : ¬ ['*', '/'] <:+: s → Blanked m b.parted u t →
      Blanked m b ('/' :: '*' :: (s ++ '*' :: '/' :: u)) (blank s ++ t)
  | comma {m b c s u t} : b = .word ∨ b = .value → skipSpace t = c :: s → c ∈ [']', '}'] →
      Blanked m .separator u t → Blanked m b (',' :: u) (' ' :: t)
  | loneComma {c s u t} : skipSpace t = c :: s → c ∈ [']', '}'] → Blanked .lax .separator u t →
      Blanked .lax .opening (',' :: u) (' ' :: t)
  | openBlock {b s} : ¬ ['*', '/'] <:+: s → Blanked .lax b ('/' :: '*' :: s) (blank s)
  | inWord {c s u t} : ¬ ['*', '/'] <:+: s → '\n' ∉ s → isWordChar c = true →
      Blanked .lax .word u (c :: t) →
        Blanked .lax .word ('/' :: '*' :: (s ++ '*' :: '/' :: u)) (c :: t)

/-! ## The parts of a text -/

/-- A text consists of comments, strings and other characters. At its end a string or a block comment
may be open. -/
inductive Parts : List Char → Prop
  | nil : Parts []
  | char {c u} : c ≠ '"' → (c = '/' → ∀ d ∈ u.head?, d ≠ '/' ∧ d ≠ '*') → Parts u → Parts (c :: u)
  | string {s u} : StringBody s → Parts u → Parts ('"' :: (s ++ '"' :: u))
  | openString {s} : (∀ b r, StringBody b → s ≠ b ++ '"' :: r) → Parts ('"' :: s)
  | line {s u} : '\n' ∉ s → (∀ c ∈ u.head?, c = '\n') → Parts u → Parts ('/' :: '/' :: (s ++ u))
  | block {s u} : ¬ ['*', '/'] <:+: s → Parts u → Parts ('/' :: '*' :: (s ++ '*' :: '/' :: u))
  | openBlock {s} : ¬ ['*', '/'] <:+: s → Parts ('/' :: '*' :: s)

/-- A block comment is closed where that can be done first, or not at all. -/
theorem block_closed_or_open (s : List Char) :
    (∃ b r, s = b ++ '*' :: '/' :: r ∧ ¬ ['*', '/'] <:+: b) ∨ ¬ ['*', '/'] <:+: s := by
  induction s with
  | nil => exact .inr (by decide)
  | cons c s ih =>
      by_cases hclose : ∃ r, c :: s = '*' :: '/' :: r
      · obtain ⟨r, hr⟩ := hclose
        exact .inl ⟨[], r, hr, by decide⟩
      have hnot : ∀ b, ['*', '/'] <:+: c :: b → b <+: s → ['*', '/'] <:+: b := by
        intro b hb hbs
        rcases List.infix_cons_iff.mp hb with ⟨q, hq⟩ | hb
        · refine absurd ?_ hclose
          obtain ⟨r, rfl⟩ := hbs
          exact ⟨q ++ r, (congrArg (· ++ r) hq).symm⟩
        · exact hb
      rcases ih with ⟨b, r, rfl, hb⟩ | hs
      · exact .inl ⟨c :: b, r, rfl, fun h => hb (hnot b h (List.prefix_append ..))⟩
      · exact .inr fun h => hs (hnot s h List.prefix_rfl)

/-- A line comment goes up to the end of its line. -/
theorem exists_line (s : List Char) :
    ∃ b u, s = b ++ u ∧ '\n' ∉ b ∧ ∀ c ∈ u.head?, c = '\n' := by
  refine ⟨s.takeWhile (· ≠ '\n'), s.dropWhile (· ≠ '\n'), List.takeWhile_append_dropWhile.symm,
    ?_, ?_⟩
  · intro hmem
    simpa using List.all_eq_true.mp List.all_takeWhile _ hmem
  · intro c hc
    have hnot := List.head?_dropWhile_not (· ≠ '\n') s
    rw [hc] at hnot
    simpa using hnot

theorem string_closed_or_open (s : List Char) :
    (∃ b r, StringBody b ∧ s = b ++ '"' :: r) ∨ ∀ b r, StringBody b → s ≠ b ++ '"' :: r := by
  by_cases h : ∃ b r, StringBody b ∧ s = b ++ '"' :: r
  · exact .inl h
  · exact .inr fun b r hb hs => h ⟨b, r, hb, hs⟩

theorem parts_of_length_le {n : Nat} {u : List Char} (hn : u.length ≤ n) : Parts u := by
  induction n generalizing u with
  | zero =>
      rw [List.eq_nil_of_length_eq_zero (Nat.le_zero.mp hn)]
      exact .nil
  | succ n ih =>
      cases u with
      | nil => exact .nil
      | cons c s =>
          have hrest : ∀ {r}, r <:+ s → Parts r :=
            fun h => ih (Nat.le_trans h.length_le (Nat.le_of_succ_le_succ hn))
          by_cases hquote : c = '"'
          · subst hquote
            rcases string_closed_or_open s with ⟨b, r, hb, rfl⟩ | hs
            · exact .string hb (hrest ((List.suffix_cons _ r).trans (List.suffix_append b _)))
            · exact .openString hs
          by_cases hline : c = '/' ∧ ∃ s', s = '/' :: s'
          · obtain ⟨rfl, s, rfl⟩ := hline
            obtain ⟨b, u, rfl, hb, hu⟩ := exists_line s
            exact .line hb hu (hrest (List.suffix_append ('/' :: b) u))
          by_cases hblock : c = '/' ∧ ∃ s', s = '*' :: s'
          · obtain ⟨rfl, s, rfl⟩ := hblock
            rcases block_closed_or_open s with ⟨b, r, rfl, hb⟩ | hs
            · exact .block hb (hrest (((List.suffix_cons _ r).trans (List.suffix_cons _ _)).trans
                (List.suffix_append ('*' :: b) _)))
            · exact .openBlock hs
          · refine .char hquote (fun hc d hd => ?_) (hrest List.suffix_rfl)
            obtain ⟨s', hs⟩ := List.head?_eq_some_iff.mp hd
            exact ⟨by rintro rfl; exact hline ⟨hc, s', hs⟩, by rintro rfl; exact hblock ⟨hc, s', hs⟩⟩

theorem parts (u : List Char) : Parts u := parts_of_length_le (Nat.le_refl u.length)

/-! ## Stripping the parts -/

theorem dropComments_slash {u : List Char} (hu : ∀ d ∈ u.head?, d ≠ '/' ∧ d ≠ '*') :
    dropComments .code ('/' :: u) = '/' :: dropComments .code u := by
  rw [dropComments.eq_def]
  cases u with
  | nil => rfl
  | cons d u =>
      obtain ⟨hline, hblock⟩ := hu d rfl
      simp [hline, hblock]

theorem strip_char {c : Char} (hquote : c ≠ '"') (hslash : c ≠ '/') (hcomma : c ≠ ',')
    (u : List Char) : strip (c :: u) = c :: strip u := (Inert.char hquote hslash hcomma).strip_append u

theorem strip_wordChar {c : Char} (hc : isWordChar c = true) (u : List Char) :
    strip (c :: u) = c :: strip u := by
  have hne : ∀ d : Char, isWordChar d = false → c ≠ d := fun _ => ne_of_class hc
  exact strip_char (hne '"' rfl) (hne '/' rfl) (hne ',' rfl) u

theorem endsWord_strip {u : List Char} (hu : ∀ c ∈ u.head?, c = '\n') : EndsWord (strip u) := by
  cases u with
  | nil => exact nofun
  | cons c u =>
      cases hu c rfl
      rw [strip_space rfl]
      rintro _ ⟨⟩
      rfl

theorem filter_newline {s : List Char} (hs : '\n' ∉ s) : s.filter (· = '\n') = [] :=
  List.filter_eq_nil_iff.mpr fun _ hc h => hs (of_decide_eq_true h ▸ hc)

theorem strip_slash {u : List Char} (hu : ∀ d ∈ u.head?, d ≠ '/' ∧ d ≠ '*') :
    strip ('/' :: u) = '/' :: strip u := by
  unfold strip
  rw [dropComments_slash hu, blankCommas_char (by decide) (by decide)]

theorem strip_string {s : List Char} (hs : StringBody s) (u : List Char) :
    strip ('"' :: (s ++ '"' :: u)) = '"' :: (s ++ '"' :: strip u) := by
  have hstrip := (Inert.string hs).strip_append u
  simpa using hstrip

theorem strip_line {s u : List Char} (hs : '\n' ∉ s) (hu : ∀ c ∈ u.head?, c = '\n') :
    strip ('/' :: '/' :: (s ++ u)) = strip u := by
  unfold strip
  rw [dropComments_line hs hu]

theorem strip_openBlock {s : List Char} (hs : ¬ ['*', '/'] <:+: s) :
    strip ('/' :: '*' :: s) = s.filter (· = '\n') := by
  unfold strip
  rw [dropComments_openBlock hs]
  have hcommas := (Inert.spaces (@isSpace_of_mem_newlines s)).commas []
  rwa [List.append_nil, blankCommas, List.append_nil] at hcommas

theorem strip_quote (s : List Char) :
    strip ('"' :: s) = '"' :: blankCommas .string (dropComments .string s) := by
  unfold strip
  rw [dropComments_quote]
  simp [blankCommas]

/-- What closes next does so, be the commas blanked or not. -/
theorem closesNext_blankCommas {s : List Char} (h : closesNext s = true) :
    closesNext (blankCommas .code s) = true := by
  induction s with
  | nil => cases h
  | cons c s ih =>
      cases hblank : Text.isBlank c with
      | true =>
          have hquote : c ≠ '"' := by rintro rfl; cases hblank
          have hcomma : c ≠ ',' := by rintro rfl; cases hblank
          have hskip : ∀ s, closesNext (c :: s) = closesNext s := by
            intro s
            unfold closesNext Text.trimStart
            rw [List.dropWhile_cons_of_pos hblank]
          rw [hskip] at h
          rw [blankCommas_char hquote hcomma, hskip, ih h]
      | false =>
          rw [closesNext_cons hblank] at h
          have hquote : c ≠ '"' := by rintro rfl; simp at h
          have hcomma : c ≠ ',' := by rintro rfl; simp at h
          rw [blankCommas_char hquote hcomma, closesNext_cons hblank, h]

/-! ## What stripping leaves -/

/-- The second text is what stripping leaves of the first, with white space put in between tokens. A word
that goes on does so in both. -/
structure Stripped (b : Before) (u t : List Char) : Prop where
  spaced : Spaced (strip u) t
  goesOn : b = .word → ∀ c ∈ (strip u).head?, isWordChar c = true → c ∈ t.head?

theorem endsWord_or_goesOn (s : List Char) :
    EndsWord s ∨ ∃ c r, s = c :: r ∧ isWordChar c = true := by
  cases s with
  | nil => exact .inl nofun
  | cons c r =>
      cases hc : isWordChar c with
      | true => exact .inr ⟨c, r, rfl, hc⟩
      | false => exact .inl (by rintro _ ⟨⟩; exact hc)

/-- A word is not parted if it goes on in both texts. -/
theorem spaced_cons_word {c : Char} {s t : List Char} (hc : isWordChar c = true) (h : Spaced s t)
    (hon : ∀ d ∈ s.head?, isWordChar d = true → d ∈ t.head?) : Spaced (c :: s) (c :: t) := by
  rcases endsWord_or_goesOn s with hend | ⟨d, r, rfl, hd⟩
  · exact .token (.word (w := []) (List.forall_mem_singleton.mpr hc) hend) h
  obtain ⟨r', rfl⟩ := List.head?_eq_some_iff.mp (hon d rfl hd)
  rcases h.skipSpace_eq with hsame | ⟨ends, p, s', t', hp, h, hs, ht⟩
  · rw [skipSpace_of_not (isSpace_eq_false_of_isWordChar hd),
      skipSpace_of_not (isSpace_eq_false_of_isWordChar hd)] at hsame
    rw [hsame]
    exact .same
  · rw [skipSpace_of_not (isSpace_eq_false_of_isWordChar hd)] at hs ht
    rw [hs, ht]
    cases hp with
    | mark hm | close hm =>
        obtain ⟨rfl, -⟩ := List.cons.inj hs
        simp only [List.mem_cons, List.not_mem_nil, or_false] at hm
        rcases hm with rfl | rfl | rfl | rfl <;> cases hd
    | string =>
        obtain ⟨rfl, -⟩ := List.cons.inj hs
        cases hd
    | word hw hend => exact .token (.word (List.forall_mem_cons.mpr ⟨hc, hw⟩) hend) h

namespace Stripped

variable {b b' : Before} {c : Char} {s u t : List Char}

theorem nil : Stripped b [] [] := ⟨.same, by rintro - _ ⟨⟩⟩

/-- What is kept goes on with itself. -/
theorem keep (hstrip : strip (c :: u) = c :: s) (hspaced : Spaced (c :: s) (c :: t)) :
    Stripped b (c :: u) (c :: t) where
  spaced := by rwa [hstrip]
  goesOn := by
    rw [hstrip]
    rintro - d ⟨⟩ -
    rfl

theorem space (hc : isSpace c = true) (h : Stripped b' u t) : Stripped b (c :: u) (c :: t) :=
  keep (strip_space hc u) (.keep hc h.spaced)

theorem mark (hc : c ∈ ['[', '{', ',', ':']) (hstrip : strip (c :: u) = c :: strip u)
    (h : Stripped b' u t) : Stripped b (c :: u) (c :: t) :=
  keep hstrip (.token (.mark hc) h.spaced)

theorem closing (hc : c ∈ [']', '}']) (hstrip : strip (c :: u) = c :: strip u)
    (h : Stripped b' u t) : Stripped b (c :: u) (c :: t) :=
  keep hstrip (.token (.close hc) h.spaced)

theorem word (hc : isWordChar c = true) (h : Stripped .word u t) : Stripped b (c :: u) (c :: t) :=
  keep (strip_wordChar hc u) (spaced_cons_word hc h.spaced (h.goesOn rfl))

theorem string (hs : StringBody s) (h : Stripped b' u t) :
    Stripped b ('"' :: (s ++ '"' :: u)) ('"' :: (s ++ '"' :: t)) := by
  have hspaced := Spaced.token (.string (t := strip u) hs) h.spaced
  simp only [List.cons_append, List.append_assoc, List.nil_append] at hspaced
  exact keep (strip_string hs u) hspaced

theorem trailingComma (hstrip : strip (',' :: u) = ' ' :: strip u) (h : Stripped b' u t) :
    Stripped b (',' :: u) (' ' :: t) where
  spaced := by
    rw [hstrip]
    exact .keep rfl h.spaced
  goesOn := by
    rw [hstrip]
    rintro - d ⟨⟩ hd
    cases hd

/-- A comment where no word goes on. -/
theorem comment {x r : List Char} (hstrip : strip x = s.filter (· = '\n') ++ r)
    (hends : b = .word → s.filter (· = '\n') = [] → EndsWord r) (h : Spaced r t) :
    Stripped b x (blank s ++ t) where
  spaced := by
    rw [hstrip]
    exact .space rfl (.keeps isSpace_of_mem_newlines h)
  goesOn := by
    rw [hstrip]
    intro hb d hd hword
    cases hs : s.filter (· = '\n') with
    | nil =>
        rw [hs] at hd
        rw [hends hb hs d hd] at hword
        cases hword
    | cons e r =>
        rw [hs] at hd
        cases hd
        have hspace := isSpace_of_mem_newlines d (hs ▸ List.mem_cons_self)
        rw [isWordChar_eq_false_of_isSpace hspace] at hword
        cases hword

theorem line (hs : '\n' ∉ s) (hu : ∀ c ∈ u.head?, c = '\n') (h : Stripped b' u t) :
    Stripped b ('/' :: '/' :: (s ++ u)) (blank s ++ t) := by
  refine comment ?_ (fun _ _ => endsWord_strip hu) h.spaced
  rw [strip_line hs hu, filter_newline hs, List.nil_append]

theorem openBlock (hs : ¬ ['*', '/'] <:+: s) : Stripped b ('/' :: '*' :: s) (blank s) := by
  have hcomment : Stripped b ('/' :: '*' :: s) (blank s ++ []) := by
    refine comment (r := []) ?_ (fun _ _ => nofun) .same
    rw [strip_openBlock hs, List.append_nil]
  rwa [List.append_nil] at hcomment

theorem inWord (hs : ¬ ['*', '/'] <:+: s) (hline : '\n' ∉ s) (h : Stripped .word u t) :
    Stripped .word ('/' :: '*' :: (s ++ '*' :: '/' :: u)) t := by
  have hstrip : strip ('/' :: '*' :: (s ++ '*' :: '/' :: u)) = strip u := by
    rw [strip_block hs, filter_newline hline, List.nil_append]
  refine ⟨?_, ?_⟩
  · rw [hstrip]
    exact h.spaced
  · rw [hstrip]
    exact h.goesOn

end Stripped

/-! ## Blanking the parts -/

/-- If a closing bracket is next after a separator, then with all the commas still there. -/
def Fits (b : Before) (u : List Char) : Prop :=
  b = .separator → closesNext (strip u) = true → closesNext (dropComments .code u) = true

namespace Fits

variable {b : Before} {u x : List Char}

theorem of_ne (hb : b ≠ .separator) : Fits b u := fun h => absurd h hb

theorem of_open (hu : closesNext (strip u) = false) : Fits b u := by
  intro _ h
  rw [hu] at h
  cases h

/-- White space does not count. -/
theorem parted (h : Fits b x) (hstrip : closesNext (strip x) = closesNext (strip u))
    (hcomments : closesNext (dropComments .code x) = closesNext (dropComments .code u)) :
    Fits b.parted u := by
  intro hb
  have hsep : b = .separator := by cases b <;> first | rfl | cases hb
  rw [← hstrip, ← hcomments]
  exact h hsep

end Fits

/-- A part that is a character, and the text after it. -/
theorem exists_blanked_char {c : Char} {u : List Char}
    (hquote : c ≠ '"') (hslash : c = '/' → ∀ d ∈ u.head?, d ≠ '/' ∧ d ≠ '*')
    (ih : ∀ {b}, Tokenized (strip u) → Fits b u → ∃ t, Blanked .lax b u t ∧ Stripped b u t)
    {b : Before} (htokens : Tokenized (strip (c :: u))) (hfits : Fits b (c :: u)) :
    ∃ t, Blanked .lax b (c :: u) t ∧ Stripped b (c :: u) t := by
  by_cases hcomma : c = ',' ∧ closesNext (dropComments .code u) = true
  · obtain ⟨rfl, hcloses⟩ := hcomma
    have hstrip : strip (',' :: u) = ' ' :: strip u := by rw [strip_comma, hcloses]; rfl
    rw [hstrip] at htokens
    have hrest := htokens.tail (by decide)
    have hnext := closesNext_blankCommas hcloses
    obtain ⟨t, hblanked, hstripped⟩ := ih (b := .separator) hrest fun _ _ => hcloses
    obtain ⟨d, r, hskip, hd⟩ := hrest.exists_closing hnext
    have hmark : d ≠ '"' ∧ isWordChar d = false := by
      simp only [List.mem_cons, List.not_mem_nil, or_false] at hd
      rcases hd with rfl | rfl <;> decide
    obtain ⟨r', hskip', -⟩ := Respaced.mark (.inl hstripped.spaced) hskip hmark.1 hmark.2
    refine ⟨_, ?_, hstripped.trailingComma hstrip⟩
    cases b with
    | separator =>
        -- The bracket would be next after a separator, and the comma is.
        have hnone := hfits rfl (by rw [hstrip, closesNext_space rfl]; exact hnext)
        rw [dropComments_char (by decide) (by decide)] at hnone
        cases hnone
    | opening => exact .loneComma hskip' hd hblanked
    | word => exact .comma (.inl rfl) hskip' hd hblanked
    | value => exact .comma (.inr rfl) hskip' hd hblanked
  have hstrip : strip (c :: u) = c :: strip u := by
    by_cases h : c = '/'
    · subst h
      exact strip_slash (hslash rfl)
    by_cases h' : c = ','
    · subst h'
      rw [strip_comma, if_neg fun h => hcomma ⟨rfl, h⟩]
    · exact strip_char hquote h h' u
  rw [hstrip] at htokens
  generalize hs : strip u = s at htokens
  cases htokens with
  | space hc h =>
      subst hs
      obtain ⟨t, hblanked, hstripped⟩ := ih h (hfits.parted (by rw [hstrip, closesNext_space hc])
        (by rw [dropComments_space hc, closesNext_space hc]))
      exact ⟨_, .space hc hblanked, hstripped.space hc⟩
  | opening hc h =>
      subst hs
      obtain ⟨t, hblanked, hstripped⟩ := ih (b := .opening) h (.of_ne nofun)
      exact ⟨_, .opening hc hblanked, hstripped.mark (List.mem_append_left [',', ':'] hc) hstrip⟩
  | closing hc h =>
      subst hs
      obtain ⟨t, hblanked, hstripped⟩ := ih (b := .value) h (.of_ne nofun)
      exact ⟨_, .closing hc hblanked, hstripped.closing hc hstrip⟩
  | separator hc hopen h =>
      subst hs
      obtain ⟨t, hblanked, hstripped⟩ := ih (b := .separator) h (.of_open hopen)
      exact ⟨_, .separator hc hblanked, hstripped.mark (List.mem_append_right ['[', '{'] hc) hstrip⟩
  | string => exact absurd rfl hquote
  | word hc _ h =>
      subst hs
      obtain ⟨t, hblanked, hstripped⟩ := ih (b := .word) h (.of_ne nofun)
      exact ⟨_, .word hc hblanked, hstripped.word hc⟩

/-- A part that is a closed block comment, and the text after it. -/
theorem exists_blanked_block {s u : List Char} (hs : ¬ ['*', '/'] <:+: s)
    (ih : ∀ {b}, Fits b u → ∃ t, Blanked .lax b u t ∧ Stripped b u t) {b : Before}
    (hfits : Fits b ('/' :: '*' :: (s ++ '*' :: '/' :: u))) :
    ∃ t, Blanked .lax b ('/' :: '*' :: (s ++ '*' :: '/' :: u)) t ∧
      Stripped b ('/' :: '*' :: (s ++ '*' :: '/' :: u)) t := by
  have hstrip := strip_block hs u
  by_cases hword : b = .word ∧ '\n' ∉ s ∧ ¬ EndsWord (strip u)
  · obtain ⟨rfl, hline, hgoes⟩ := hword
    obtain ⟨c, r, hu, hc⟩ := (endsWord_or_goesOn (strip u)).resolve_left hgoes
    obtain ⟨t, hblanked, hstripped⟩ := ih (b := .word) (.of_ne nofun)
    obtain ⟨t, rfl⟩ := List.head?_eq_some_iff.mp (hstripped.goesOn rfl c (by rw [hu]; rfl) hc)
    exact ⟨_, .inWord hs hline hc hblanked, hstripped.inWord hs hline⟩
  obtain ⟨t, hblanked, hstripped⟩ := ih (hfits.parted
    (by rw [hstrip, closesNext_spaces isSpace_of_mem_newlines])
    (by rw [dropComments_block hs, closesNext_spaces isSpace_of_mem_newlines]))
  refine ⟨_, .block hs hblanked, .comment hstrip (fun hb hnil => ?_) hstripped.spaced⟩
  have hline : '\n' ∉ s := fun h => List.filter_eq_nil_iff.mp hnil _ h rfl
  exact Classical.byContradiction fun h => hword ⟨hb, hline, h⟩

/-- What stripping leaves of a text, if it consists of tokens, is the text that a lax reader takes it
for, but for white space. -/
theorem exists_blanked {u : List Char} (hu : Parts u) {b : Before} (htokens : Tokenized (strip u))
    (hfits : Fits b u) : ∃ t, Blanked .lax b u t ∧ Stripped b u t := by
  induction hu generalizing b with
  | nil => exact ⟨[], .nil, .nil⟩
  | char hquote hslash _ ih => exact exists_blanked_char hquote hslash ih htokens hfits
  | @string s u hs _ ih =>
      rw [strip_string hs] at htokens
      obtain ⟨b, r, hb, hsame, hr⟩ := htokens.exists_body
      obtain ⟨rfl, rfl⟩ := hs.eq_of_append_eq hb hsame
      obtain ⟨t, hblanked, hstripped⟩ := ih (b := .value) hr (.of_ne nofun)
      exact ⟨_, .string hs hblanked, hstripped.string hs⟩
  | @openString s hs =>
      rw [strip_quote] at htokens
      obtain ⟨b, r, hb, hpasses, -⟩ := htokens.exists_body
      obtain ⟨r', hcomments⟩ := copiesStrings_blankCommas.exists_of_body hb hpasses
      obtain ⟨r'', hclosed⟩ := copiesStrings_dropComments.exists_of_body hb hcomments
      exact absurd hclosed (hs b r'' hb)
  | @line s u hs hu _ ih =>
      have hstrip := strip_line hs hu
      rw [hstrip] at htokens
      obtain ⟨t, hblanked, hstripped⟩ := ih htokens
        (hfits.parted (by rw [hstrip]) (by rw [dropComments_line hs hu]))
      exact ⟨_, .line hs hu hblanked, hstripped.line hs hu⟩
  | @block s u hs _ ih =>
      rw [strip_block hs] at htokens
      exact exists_blanked_block hs (ih (htokens.of_spaces isSpace_of_mem_newlines)) hfits
  | openBlock hs => exact ⟨_, .openBlock hs, .openBlock hs⟩

end ScriptWorks.Jsonc

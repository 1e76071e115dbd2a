import ScriptWorks.Config.Glob

/-!
# What patterns cover

Outside of classes and of `**` a pattern is read character by character. Characters that stand for
themselves are found as they are; a pattern with other wildcards finds at least the text that it is written
as. A pattern without `*` finds no text with more slashes than it is written with.
-/

namespace ScriptWorks.Glob

variable {cs ds rest text : List Char} {c : Char} {t : Token} {ts done : List Token} {fuel : Nat}
  {fresh : Bool}

/-! ## Reading -/

/-- What a character stands for outside of classes and of `**`. -/
def tokenOf (c : Char) : Token :=
  if c = '?' then .anyChar else if c = '*' then .anySequence else .char c

/-- A text with neither classes nor `**`. -/
structure IsSimple (cs : List Char) : Prop where
  noClass : '[' ∉ cs
  noDirectories : ¬ ['*', '*'] <:+: cs

theorem IsSimple.tail (h : IsSimple (c :: cs)) : IsSimple cs :=
  ⟨fun hmem => h.noClass (List.mem_cons_of_mem c hmem),
    fun hinner => h.noDirectories (hinner.trans (List.suffix_cons c cs).isInfix)⟩

theorem IsSimple.append_slash (hcs : IsSimple cs) (hds : IsSimple ds) : IsSimple (cs ++ '/' :: ds) := by
  refine ⟨by simp [hcs.noClass, hds.noClass], fun hinner => ?_⟩
  induction cs with
  | nil =>
      rcases List.infix_cons_iff.mp hinner with hfront | hinner
      · cases (List.cons_prefix_cons.mp hfront).1
      · exact hds.noDirectories hinner
  | cons c cs ih =>
      rcases List.infix_cons_iff.mp hinner with hfront | hinner
      · obtain ⟨hc, hnext⟩ := List.cons_prefix_cons.mp hfront
        cases cs with
        | nil => simp at hnext
        | cons d cs =>
            obtain ⟨hd, -⟩ := List.cons_prefix_cons.mp hnext
            exact hcs.noDirectories ⟨[], cs, by rw [← hc, ← hd]; rfl⟩
      · exact ih hcs.tail hinner

theorem tokensFrom_cons (hc : c ≠ '[') (hstar : c = '*' → cs.head? ≠ some '*') :
    tokensFrom (fuel + 1) fresh done (c :: cs) =
      tokensFrom fuel (decide (c = '/')) (tokenOf c :: done) cs := by
  unfold tokenOf
  by_cases hquestion : c = '?'
  · subst hquestion
    rfl
  by_cases hstar' : c = '*'
  · subst hstar'
    cases cs with
    | nil => rfl
    | cons d cs =>
        have hd : d ≠ '*' := fun heq => hstar rfl (congrArg some heq)
        simp [tokensFrom, hd]
  · simp [tokensFrom, hquestion, hstar', hc]

/-- A simple text is read character by character, whatever comes after it. -/
theorem tokensFrom_append (hcs : IsSimple cs) (rest : List Char) (hrest : rest.head? ≠ some '*')
    (fuel : Nat) (fresh : Bool) (done : List Token) : ∃ fresh', tokensFrom (fuel + cs.length) fresh done (cs ++ rest) =
      tokensFrom fuel fresh' ((cs.map tokenOf).reverse ++ done) rest := by
  induction cs generalizing fresh done with
  | nil => exact ⟨fresh, rfl⟩
  | cons c cs ih =>
      have hc : c ≠ '[' := fun heq => hcs.noClass (heq ▸ List.mem_cons_self)
      have hstar : c = '*' → (cs ++ rest).head? ≠ some '*' := by
        rintro rfl hhead
        cases cs with
        | nil => exact hrest hhead
        | cons d cs =>
            cases hhead
            exact hcs.noDirectories ⟨[], cs, rfl⟩
      obtain ⟨fresh', hread⟩ := ih hcs.tail (decide (c = '/')) (tokenOf c :: done)
      refine ⟨fresh', ?_⟩
      rw [List.length_cons, ← Nat.add_assoc, List.cons_append, tokensFrom_cons hc hstar, hread]
      simp

theorem ofString?_of_simple {s : String} (hs : IsSimple s.toList) :
    ofString? s = some ⟨s.toList.map tokenOf⟩ := by
  obtain ⟨fresh, hread⟩ := tokensFrom_append hs [] nofun 1 true []
  rw [List.append_nil, String.length_toList, Nat.add_comm] at hread
  rw [ofString?, hread]
  simp [tokensFrom]

/-- A simple text followed by what stands for all that is below it. -/
theorem ofString?_below {s : String} (hs : IsSimple s.toList) :
    ofString? (s ++ "/**/*") =
      some ⟨s.toList.map tokenOf ++ [.char '/', .anyDirectories, .anySequence]⟩ := by
  obtain ⟨fresh, hread⟩ := tokensFrom_append hs "/**/*".toList (by decide) 6 true []
  have hfuel : (s ++ "/**/*").length + 1 = 6 + s.toList.length := by
    rw [String.length_append, String.length_toList, Nat.add_comm 6]
    rfl
  rw [ofString?, hfuel, String.toList_append, hread]
  simp [tokensFrom, addDirectories]

/-! ## Characters that stand for themselves -/

/-- A text without wildcards. -/
structure IsPlain (cs : List Char) : Prop where
  noChar : '?' ∉ cs
  noSequence : '*' ∉ cs
  noClass : '[' ∉ cs

theorem IsPlain.isSimple (h : IsPlain cs) : IsSimple cs :=
  ⟨h.noClass, fun hinner => h.noSequence (hinner.subset List.mem_cons_self)⟩

theorem IsPlain.map_tokenOf (h : IsPlain cs) : cs.map tokenOf = cs.map .char := by
  refine List.map_congr_left fun c hc => ?_
  have hquestion : c ≠ '?' := fun heq => h.noChar (heq ▸ hc)
  have hstar : c ≠ '*' := fun heq => h.noSequence (heq ▸ hc)
  rw [tokenOf, if_neg hquestion, if_neg hstar]

/-! ## Matching -/

/-- A token for exactly one character. -/
structure Token.IsSingle (t : Token) : Prop where
  ne_sequence : t ≠ .anySequence
  ne_directories : t ≠ .anyDirectories

theorem isSingle_tokenOf (hc : c ≠ '*') : (tokenOf c).IsSingle := by
  rw [tokenOf, if_neg hc]
  split
  · exact ⟨Token.noConfusion, Token.noConfusion⟩
  · exact ⟨Token.noConfusion, Token.noConfusion⟩

theorem run_single_nil (ht : t.IsSingle) : run (t :: ts) [] = .textTooShort := by
  cases t with
  | anySequence => exact absurd rfl ht.ne_sequence
  | anyDirectories => exact absurd rfl ht.ne_directories
  | char | anyChar | within | except => rfl

theorem run_single_cons (ht : t.IsSingle) :
    run (t :: ts) (c :: cs) = if t.accepts c then run ts cs else .notHere := by
  cases t with
  | anySequence => exact absurd rfl ht.ne_sequence
  | anyDirectories => exact absurd rfl ht.ne_directories
  | char | anyChar | within | except => rfl

theorem run_nil : run [] text = .found ↔ text = [] := by
  cases text <;> simp [run]

theorem run_char_append : run (cs.map .char ++ ts) text = .found ↔
    ∃ rest, text = cs ++ rest ∧ run ts rest = .found := by
  induction cs generalizing text with
  | nil => simp
  | cons c cs ih =>
      have hsingle : (Token.char c).IsSingle := ⟨nofun, nofun⟩
      cases text with
      | nil => simp [run_single_nil hsingle]
      | cons d text =>
          rw [List.map_cons, List.cons_append, run_single_cons hsingle, Token.accepts]
          by_cases hd : d = c <;> simp [hd, ih]

theorem run_anySequence : run [.anySequence] cs = if '/' ∈ cs then .notHere else .found := by
  rw [run]
  induction cs with
  | nil => rfl
  | cons c cs ih =>
      rw [tryFrom, if_pos rfl, run]
      by_cases hc : c = '/'
      · simp [hc]
      · have hmem : '/' ∈ c :: cs ↔ '/' ∈ cs := by simp [Ne.symm hc]
        simp [hc, hmem, ih]

/-- What stands for all that is below something covers every text. -/
theorem run_all : run [.anyDirectories, .anySequence] cs = .found := by
  have hfrom : ∀ mayEnd, tryFrom (run [.anySequence]) false mayEnd cs = .found := by
    induction cs with
    | nil => exact fun _ => rfl
    | cons c cs ih =>
        intro mayEnd
        rw [tryFrom, run_anySequence]
        cases mayEnd with
        | false => simp [ih]
        | true => by_cases hslash : '/' ∈ c :: cs <;> simp [hslash, ih]
  rw [run]
  exact hfrom true

/-- A plain text covers itself. -/
theorem meaning_of_plain {s : String} (hs : IsPlain s.toList) : ∃ covers, meaning s = some covers ∧
    ∀ text, covers text = true ↔ text = s := by
  refine ⟨_, by rw [meaning, ofString?_of_simple hs.isSimple, Option.map_some], fun text => ?_⟩
  rw [covers, decide_eq_true_iff, hs.map_tokenOf, ← List.append_nil (s.toList.map _), run_char_append]
  simp [run_nil, String.toList_inj]

/-- A plain text that goes on with what stands for all that is below it covers that. -/
theorem meaning_below_of_plain {s : String} (hs : IsPlain s.toList) :
    ∃ covers, meaning (s ++ "/**/*") = some covers ∧
      ∀ text, covers text = true ↔ ∃ rest, text.toList = s.toList ++ '/' :: rest := by
  refine ⟨_, by rw [meaning, ofString?_below hs.isSimple, Option.map_some], fun text => ?_⟩
  have htokens : s.toList.map Token.char ++ [.char '/', .anyDirectories, .anySequence] =
      (s.toList ++ ['/']).map Token.char ++ [.anyDirectories, .anySequence] := by simp
  rw [covers, decide_eq_true_iff, hs.map_tokenOf, htokens, run_char_append]
  simp [run_all]

/-! ## Patterns that find themselves -/

section

variable {f : List Char → Outcome}

theorem tryFrom_of_found (hfound : f cs = .found) : tryFrom f true true cs = .found := by
  cases cs with
  | nil => exact hfound
  | cons c cs => simp [tryFrom, hfound]

theorem tryFrom_cons (hc : c ≠ '/') (hhere : f (c :: cs) = .notHere) :
    tryFrom f true true (c :: cs) = tryFrom f true true cs := by
  simp [tryFrom, hhere, hc]

theorem tryFrom_cons_eq_of_ne (hhere : f (c :: cs) ≠ .notHere) :
    tryFrom f true true (c :: cs) = f (c :: cs) := by
  rw [tryFrom]
  cases hf : f (c :: cs) with
  | notHere => exact absurd hf hhere
  | found | textTooShort => simp

theorem exists_of_tryFrom_found (hfound : tryFrom f true true cs = .found) :
    ∃ ds, ds <:+ cs ∧ f ds = .found := by
  induction cs with
  | nil => exact ⟨[], List.suffix_rfl, hfound⟩
  | cons c cs ih =>
      by_cases hhere : f (c :: cs) = .notHere
      · by_cases hc : c = '/'
        · subst hc
          simp [tryFrom, hhere] at hfound
        · rw [tryFrom_cons hc hhere] at hfound
          obtain ⟨ds, hds, hfound⟩ := ih hfound
          exact ⟨ds, hds.trans (List.suffix_cons c cs), hfound⟩
      · rw [tryFrom_cons_eq_of_ne hhere] at hfound
        exact ⟨c :: cs, List.suffix_rfl, hfound⟩

/-- The text is too short at one place, and there was no match at the places before. -/
theorem exists_of_tryFrom_tooShort (hshort : tryFrom f true true cs = .textTooShort) :
    ∃ ds, ds <:+ cs ∧ f ds = .textTooShort ∧
      ∀ es, es <:+ cs → ds.length < es.length → f es = .notHere := by
  induction cs with
  | nil => exact ⟨[], List.suffix_rfl, hshort, fun es hes hlt => absurd hes.length_le (Nat.not_le.mpr hlt)⟩
  | cons c cs ih =>
      by_cases hhere : f (c :: cs) = .notHere
      · by_cases hc : c = '/'
        · subst hc
          simp [tryFrom, hhere] at hshort
        · rw [tryFrom_cons hc hhere] at hshort
          obtain ⟨ds, hds, hshort, hbefore⟩ := ih hshort
          refine ⟨ds, hds.trans (List.suffix_cons c cs), hshort, fun es hes hlt => ?_⟩
          rcases List.suffix_cons_iff.mp hes with rfl | hes
          · exact hhere
          · exact hbefore es hes hlt
      · rw [tryFrom_cons_eq_of_ne hhere] at hshort
        exact ⟨c :: cs, List.suffix_rfl, hshort,
          fun es hes hlt => absurd hes.length_le (Nat.not_le.mpr hlt)⟩

end

/-- A pattern is found in no later part of a text that is too short for it. -/
theorem not_found_of_tooShort (hts : Token.anyDirectories ∉ ts) (hshort : run ts cs = .textTooShort)
    (hds : ds <:+ cs) : run ts ds ≠ .found := by
  induction ts generalizing cs ds with
  | nil => cases cs <;> cases hshort
  | cons t ts ih =>
      have hrest : Token.anyDirectories ∉ ts := fun hmem => hts (List.mem_cons_of_mem t hmem)
      have hdirectories : t ≠ .anyDirectories := fun heq => hts (heq ▸ List.mem_cons_self)
      intro hfound
      by_cases hsequence : t = .anySequence
      · subst hsequence
        rw [run] at hshort hfound
        obtain ⟨es, hes, hshort, hbefore⟩ := exists_of_tryFrom_tooShort hshort
        obtain ⟨fs, hfs, hfound⟩ := exists_of_tryFrom_found hfound
        -- The place of the match is not before the one where the text is too short, so it is after.
        rcases Nat.lt_or_ge es.length fs.length with hlt | hle
        · rw [hbefore fs (hfs.trans hds) hlt] at hfound
          cases hfound
        · exact ih hrest hshort (List.suffix_of_suffix_length_le (hfs.trans hds) hes hle) hfound
      · have ht : t.IsSingle := ⟨hsequence, hdirectories⟩
        cases ds with
        | nil =>
            rw [run_single_nil ht] at hfound
            cases hfound
        | cons d ds =>
            obtain ⟨front, rfl⟩ := hds
            cases front with
            | nil => exact absurd (hfound.symm.trans hshort) nofun
            | cons c front =>
                rw [List.cons_append, run_single_cons ht] at hshort
                rw [run_single_cons ht] at hfound
                split at hshort
                case isFalse => cases hshort
                split at hfound
                case isFalse => cases hfound
                refine ih hrest hshort ?_ hfound
                exact ⟨front ++ [d], by rw [List.append_assoc]; rfl⟩

theorem anyDirectories_notMem_map_tokenOf : Token.anyDirectories ∉ cs.map tokenOf := by
  intro hmem
  obtain ⟨c, -, hc⟩ := List.mem_map.mp hmem
  unfold tokenOf at hc
  split at hc
  · cases hc
  · split at hc <;> cases hc

/-- A text is found by what its characters stand for. -/
theorem run_self (cs : List Char) : run (cs.map tokenOf) cs = .found := by
  induction cs with
  | nil => rfl
  | cons c cs ih =>
      rw [List.map_cons]
      by_cases hstar : c = '*'
      · subst hstar
        have hhere : run (cs.map tokenOf) ('*' :: cs) ≠ .textTooShort := fun hshort =>
          not_found_of_tooShort anyDirectories_notMem_map_tokenOf hshort (List.suffix_cons '*' cs) ih
        have htoken : tokenOf '*' = .anySequence := rfl
        rw [htoken, run]
        -- The sequence is the star itself, unless it can be empty.
        cases hrun : run (cs.map tokenOf) ('*' :: cs) with
        | found => exact tryFrom_of_found hrun
        | textTooShort => exact absurd hrun hhere
        | notHere =>
            rw [tryFrom_cons (by decide) hrun]
            exact tryFrom_of_found ih
      · have haccepts : (tokenOf c).accepts c = true := by
          rw [tokenOf, if_neg hstar]
          split
          case isTrue hquestion => rw [hquestion]; rfl
          case isFalse => exact decide_eq_true rfl
        rw [run_single_cons (isSingle_tokenOf hstar), if_pos haccepts, ih]

/-! ## Slashes -/

theorem suffix_of_splitClass {found : List Char × List Char} (h : splitClass cs = some found) :
    found.2 <:+ cs := by
  cases cs with
  | nil => cases h
  | cons c cs =>
      rw [splitClass] at h
      split at h
      case isFalse => cases h
      case isTrue =>
        cases h
        exact ((List.tail_suffix _).trans (List.dropWhile_suffix _)).trans (List.suffix_cons c cs)

/-- A class is one token for one character, which is no slash. -/
theorem exists_class_of_tokensFrom (hread : tokensFrom (fuel + 1) fresh done ('[' :: cs) = some ts) :
    ∃ t rest, t.IsSingle ∧ t ≠ .char '/' ∧ rest <:+ cs ∧
      tokensFrom fuel false (t :: done) rest = some ts := by
  unfold tokensFrom at hread
  rw [if_neg (by decide), if_neg (by decide), if_pos rfl] at hread
  split at hread
  case h_1 ds =>
    split at hread
    case h_1 text rest hsplit =>
      exact ⟨_, rest, ⟨Token.noConfusion, Token.noConfusion⟩, Token.noConfusion,
        (suffix_of_splitClass hsplit).trans (List.suffix_cons '!' ds), hread⟩
    case h_2 => cases hread
  case h_2 =>
    split at hread
    case h_1 text rest hsplit =>
      exact ⟨_, rest, ⟨Token.noConfusion, Token.noConfusion⟩, Token.noConfusion,
        suffix_of_splitClass hsplit, hread⟩
    case h_2 => cases hread

/-- A pattern without sequences is of single characters, and has no more slashes than it is written
with. -/
theorem slashes_of_tokensFrom (hcs : '*' ∉ cs) (hdone : ∀ t ∈ done, t.IsSingle)
    (hread : tokensFrom fuel fresh done cs = some ts) :
    (∀ t ∈ ts, t.IsSingle) ∧ ts.count (.char '/') ≤ done.count (.char '/') + cs.count '/' := by
  induction fuel generalizing fresh done cs with
  | zero => cases hread
  | succ fuel ih =>
      cases cs with
      | nil =>
          cases hread
          exact ⟨fun t ht => hdone t (List.mem_reverse.mp ht), by simp⟩
      | cons c cs =>
          obtain ⟨hstar, hcs⟩ := not_or.mp (mt List.mem_cons.mpr hcs)
          by_cases hbracket : c = '['
          · rw [hbracket] at hread ⊢
            obtain ⟨t, rest, ht, hslash, hrest, hread⟩ := exists_class_of_tokensFrom hread
            obtain ⟨hsingle, hcount⟩ := ih (fun hmem => hcs (hrest.subset hmem))
              (List.forall_mem_cons.mpr ⟨ht, hdone⟩) hread
            have hslashes := hrest.sublist.count_le '/'
            rw [List.count_cons_of_ne hslash] at hcount
            rw [List.count_cons_of_ne (by decide)]
            exact ⟨hsingle, by omega⟩
          · rw [tokensFrom_cons hbracket fun heq => absurd heq.symm hstar] at hread
            obtain ⟨hsingle, hcount⟩ := ih hcs
              (List.forall_mem_cons.mpr ⟨isSingle_tokenOf (Ne.symm hstar), hdone⟩) hread
            have hslash : tokenOf c = .char '/' ↔ c = '/' := by
              unfold tokenOf
              split
              case isTrue hc => simp [hc]
              case isFalse => simp [Ne.symm hstar]
            rw [List.count_cons] at hcount ⊢
            simp only [beq_iff_eq, hslash] at hcount ⊢
            exact ⟨hsingle, by omega⟩

/-- Single characters are found only in texts with as many slashes. -/
theorem count_slash_of_found (hts : ∀ t ∈ ts, t.IsSingle) (hfound : run ts text = .found) :
    text.count '/' = ts.count (.char '/') := by
  induction ts generalizing text with
  | nil => rw [run_nil.mp hfound]; rfl
  | cons t ts ih =>
      obtain ⟨ht, hts⟩ := List.forall_mem_cons.mp hts
      cases text with
      | nil => rw [run_single_nil ht] at hfound; cases hfound
      | cons c text =>
          rw [run_single_cons ht] at hfound
          split at hfound
          case isFalse => cases hfound
          case isTrue haccepts =>
            have hslash : c = '/' ↔ t = .char '/' := by
              cases t <;> simp_all [Token.accepts]
            rw [List.count_cons, List.count_cons, ih hts hfound]
            simp [hslash]

/-- A pattern without `*` covers only texts with at most as many slashes. -/
theorem count_slash_le_of_covers {s : String} {covers : String → Bool} (hs : '*' ∉ s.toList)
    (hmeans : meaning s = some covers) {text : String} (hcovers : covers text = true) :
    text.toList.count '/' ≤ s.toList.count '/' := by
  obtain ⟨g, hg, rfl⟩ := Option.map_eq_some_iff.mp hmeans
  obtain ⟨ts, hread, rfl⟩ := Option.map_eq_some_iff.mp hg
  obtain ⟨hsingle, hcount⟩ := slashes_of_tokensFrom hs (fun _ ht => absurd ht List.not_mem_nil) hread
  rw [count_slash_of_found hsingle (of_decide_eq_true hcovers)]
  simpa using hcount

end ScriptWorks.Glob

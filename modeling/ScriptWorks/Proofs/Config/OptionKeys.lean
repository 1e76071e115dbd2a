import ScriptWorks.Proofs.Config.Roots
import ScriptWorks.Proofs.Json.Entries
import ScriptWorks.Proofs.Jsonc.Origin
import ScriptWorks.Proofs.Text.Search

/-!
# Where refused options are shown

The place of a refused option is searched for in the text of the configuration: it is the first one, from
the first `compilerOptions` in quotes on, at which the name stands in quotes. The key of the option is such
a place, but there may be others before it.
-/

namespace ScriptWorks

open Json (Entry StandsIn StringBody nestingLimit objectEntries)
open Text (StandsAt byteLength)
open Project (inQuotes)

/-! ## Keys in texts -/

namespace Jsonc

/-- The byte offset in a text of the place from which the stripped text goes on with `p`. -/
def offsetIn (text p : List Char) : Nat := byteLength (front text (numberOf text p))

variable {text : List Char} {e : Entry} {name : String}

/-- A key that is written without escapes stands so in the text. -/
theorem standsAt_of_standsIn (he : StandsIn e (strip text)) (hname : StringBody name.toList)
    (hplain : inQuotes name <+: e.place) : StandsAt (inQuotes name) text (offsetIn text e.place) := by
  obtain ⟨r, hr⟩ := hplain
  have hplace : e.place = '"' :: (name.toList ++ '"' :: r) := by rw [← hr]; simp [inQuotes]
  obtain ⟨s, hs⟩ := exists_front_of_passes (p := r) hname (hplace ▸ he.passes)
  refine ⟨_, s, ?_, rfl⟩
  rw [hplace]
  simpa [inQuotes] using hs

/-- Without escapes a key is written as it is read. -/
theorem inQuotes_prefix_of_no_escape (he : StandsIn e (strip text)) (htext : '\\' ∉ text) :
    inQuotes e.key <+: e.place := by
  obtain ⟨s, s', hplace, hkey, -⟩ := he.key
  obtain ⟨chars, hchars, hname⟩ := Json.readString_eq_ok_iff.mp hkey
  have hs : '\\' ∉ s := fun h => htext (mem_of_mem_strip
    (he.passes.mem (hplace ▸ List.mem_cons_of_mem _ h)) (by decide))
  rw [hplace, hname, (hchars.eq_of_no_escape hs).1]
  exact ⟨s', by simp [inQuotes]⟩

theorem offsetIn_le {p q : List Char} (h : q.length ≤ p.length) : offsetIn text p ≤ offsetIn text q := by
  obtain ⟨more, hmore⟩ : front text (numberOf text p) <+: front text (numberOf text q) :=
    front_mono (Nat.sub_le_sub_left h _)
  unfold offsetIn
  rw [← hmore, Text.byteLength_append]
  exact Nat.le_add_right _ _

end Jsonc

namespace Config

/-- The entries of the options: those of each member `compilerOptions` of the root. -/
def optionEntries (cs : List Char) : List Entry :=
  ((objectEntries (2 * cs.length) nestingLimit cs).filter (·.key = "compilerOptions")).flatMap
    fun e => objectEntries (2 * cs.length) (nestingLimit - 1) e.value

/-- At the offset stands the key of an option in quotes: the key of an entry of the options. -/
def IsOptionKey (text : String) (o : CompilerOption) (offset : Nat) : Prop :=
  ∃ e ∈ optionEntries (Jsonc.strip text.toList), e.key = o.name ∧ inQuotes o.name <+: e.place ∧
    Jsonc.offsetIn text.toList e.place = offset

instance (text : String) (o : CompilerOption) (offset : Nat) : Decidable (IsOptionKey text o offset) :=
  inferInstanceAs (Decidable (∃ e ∈ _, _))

variable {text : String} {o : CompilerOption} {offset : Nat}

theorem stringBody_of_plain {b : List Char} (hquote : '"' ∉ b) (hslash : '\\' ∉ b) : StringBody b := by
  induction b with
  | nil => exact .nil
  | cons c b ih =>
      simp only [List.mem_cons, not_or] at hquote hslash
      exact .char (Ne.symm hquote.1) (Ne.symm hslash.1) (ih hquote.2 hslash.2)

theorem stringBody_name (o : CompilerOption) : StringBody o.name.toList :=
  stringBody_of_plain (by cases o <;> decide) (by cases o <;> decide)

theorem exists_section_of_mem_optionEntries {cs : List Char} {e : Entry} (he : e ∈ optionEntries cs) :
    ∃ s, StandsIn s cs ∧ s.key = "compilerOptions" ∧ StandsIn e s.value := by
  obtain ⟨s, hs, he⟩ := List.mem_flatMap.mp he
  obtain ⟨hs, hkey⟩ := List.mem_filter.mp hs
  exact ⟨s, Json.standsIn_of_mem_objectEntries hs, of_decide_eq_true hkey,
    Json.standsIn_of_mem_objectEntries he⟩

theorem standsIn_of_mem_optionEntries {cs : List Char} {e : Entry} (he : e ∈ optionEntries cs) :
    StandsIn e cs := by
  obtain ⟨s, hs, -, he⟩ := exists_section_of_mem_optionEntries he
  exact he.of_passes (hs.passes.trans hs.passes_value)

theorem IsOptionKey.standsAt (h : IsOptionKey text o offset) :
    StandsAt (inQuotes o.name) text.toList offset := by
  obtain ⟨e, he, -, hplain, rfl⟩ := h
  exact Jsonc.standsAt_of_standsIn (standsIn_of_mem_optionEntries he) (stringBody_name o) hplain

theorem exists_get?_of_mem_keys {own : Config} (hparse : parse text = .ok own)
    (ho : o.name ∈ Dict.keys own.compilerOptions) : ∃ root members v,
      Json.readText (Jsonc.strip text.toList) = .ok (.obj root) ∧
      Dict.get? root "compilerOptions" = some (.obj members) ∧ Dict.get? members o.name = some v := by
  obtain ⟨v, hv⟩ := Option.isSome_iff_exists.mp (Dict.mem_keys_iff.mp ho)
  obtain ⟨root, hroot, hown⟩ := exists_of_parse hparse
  have hread := Json.parse_eq_ok_iff.mp hroot
  rw [Jsonc.stripString, String.toList_ofList] at hread
  have hoptions := (members_of_ofMembers hown).1
  unfold optionsMember at hoptions
  split at hoptions
  · rw [← Except.ok.inj hoptions] at hv
    cases hv
  · rw [← Except.ok.inj hoptions] at hv
    cases hv
  · next hget => exact ⟨root, _, v, hread, hget, Except.ok.inj hoptions ▸ hv⟩
  · cases hoptions

/-- An option that a text without escapes sets has a key in it, after the key of the options. -/
theorem exists_isOptionKey {own : Config} (hparse : parse text = .ok own)
    (ho : o.name ∈ Dict.keys own.compilerOptions) (hplain : '\\' ∉ text.toList) :
    ∃ first k, Text.find? (inQuotes "compilerOptions") text.toList = some first ∧ first ≤ k ∧
      IsOptionKey text o k := by
  obtain ⟨root, members, v, hread, hroot, hmembers⟩ := exists_get?_of_mem_keys hparse ho
  obtain ⟨rest, hvalue, -⟩ := Json.readWhole_eq_ok_iff.mp hread
  have hstrip : '\\' ∉ Jsonc.strip text.toList :=
    fun h => hplain (Jsonc.mem_of_mem_strip h (by decide))
  obtain ⟨s, hs, hkey, fuel, r, hsection⟩ :=
    Json.exists_entry_of_readValue hstrip hvalue hroot (Nat.le_refl _)
  have hstands := Json.standsIn_of_mem_objectEntries hs
  have hpass := hstands.passes.trans hstands.passes_value
  obtain ⟨e, he, hname, -⟩ := Json.exists_entry_of_readValue (fun h => hstrip (hpass.mem h)) hsection
    hmembers (Nat.mul_le_mul_left 2 hpass.length_le)
  have hoption : e ∈ optionEntries (Jsonc.strip text.toList) :=
    List.mem_flatMap.mpr ⟨s, List.mem_filter.mpr ⟨hs, decide_eq_true hkey⟩, he⟩
  have hfirst : StandsAt (inQuotes "compilerOptions") text.toList (Jsonc.offsetIn text.toList s.place) :=
    Jsonc.standsAt_of_standsIn hstands (stringBody_of_plain (by decide) (by decide))
      (hkey ▸ Jsonc.inQuotes_prefix_of_no_escape hstands hplain)
  obtain ⟨first, hle, hfind⟩ := Text.exists_find?_of_standsAt hfirst
  have hafter := (hstands.passes_value.trans (Json.standsIn_of_mem_objectEntries he).passes).length_le
  refine ⟨first, _, hfind, Nat.le_trans hle (Jsonc.offsetIn_le hafter), e, hoption, hname, ?_, rfl⟩
  exact hname ▸ Jsonc.inQuotes_prefix_of_no_escape (standsIn_of_mem_optionEntries hoption) hplain

end Config

namespace Project

variable {text : String} {name : String} {h : Host} {p : Path} {c : Config} {d : Diagnostic}

/-- The place that is found is the first one from the key of the options on. -/
theorem place_of_keyPlace? {start length : Nat} (hplace : keyPlace? text name = some (start, length)) :
    length = byteLength (inQuotes name) ∧ ∃ first,
      Text.find? (inQuotes "compilerOptions") text.toList = some first ∧ first ≤ start ∧
      StandsAt (inQuotes name) text.toList start ∧
      ∀ i, first ≤ i → StandsAt (inQuotes name) text.toList i → start ≤ i := by
  unfold keyPlace? at hplace
  obtain ⟨first, hfirst, hplace⟩ := Option.bind_eq_some_iff.mp hplace
  obtain ⟨further, hfurther, hplace⟩ := Option.bind_eq_some_iff.mp hplace
  cases hplace
  have hsection := Text.standsAt_of_find? hfirst
  refine ⟨rfl, first, hfirst, Nat.le_add_right _ _,
    (Text.standsAt_dropBytes_iff hsection).mp (Text.standsAt_of_find? hfurther), fun i hi hstands => ?_⟩
  obtain ⟨j, rfl⟩ := Nat.exists_eq_add_of_le hi
  exact Nat.add_le_add_left
    (Text.le_of_find? hfurther ((Text.standsAt_dropBytes_iff hsection).mpr hstands)) first

/-! ## The errors of options -/

theorem code_of_mem_rootFiles {options : Options} (hd : d ∈ (c.rootFiles h options p).2) :
    d.code ∈ [6053, 18003] := by
  have hlisted : d ∈ (c.listed h (c.files.getD [])).2 → d.code ∈ [6053, 18003] := by
    intro hd
    obtain ⟨q, -, rfl⟩ := List.mem_map.mp hd
    exact List.mem_cons_self
  rw [Config.rootFiles_eq] at hd
  split at hd
  · exact hlisted hd
  · split at hd
    · rw [List.mem_singleton.mp hd]
      exact List.mem_cons_of_mem _ List.mem_cons_self
    · exact hlisted hd

theorem code_of_diagnostic (e : LoadFault) : e.diagnostic.code ∈ [5083, 1005, 6053, 18000] := by
  cases e with
  | malformed p text fault =>
      have hcode : (LoadFault.malformed p text fault).diagnostic.code = 1005 := by
        rw [LoadFault.diagnostic]
        cases LoadFault.offset? ⟨p.text, text⟩ fault <;> rfl
      rw [hcode]
      decide
  | unreadable | baseNotFound | circular => simp [LoadFault.diagnostic, Diagnostic.global]

theorem errors_of_load {own : Config} (hload : Config.loadWithExtends h p = .ok c)
    (hread : h.readText p = .ok text) (hparse : Config.parse text = .ok own) :
    (read h p).errors = (Options.ofJson c.compilerOptions).2.map
        (optionError ⟨p.text, text⟩ (Dict.keys own.compilerOptions)) ++
      (c.rootFiles h (Options.ofJson c.compilerOptions).1 p).2 := by
  unfold read
  rw [hload]
  simp only [hread, Except.toOption, Option.getD_some, hparse]

/-- The errors with these codes are those of the options that are refused, with the text of the file and
the options that it sets itself. -/
theorem exists_optionError (hd : d ∈ (read h p).errors) (hcode : d.code = 5024 ∨ d.code = 6046) :
    ∃ c text own e, Config.loadWithExtends h p = .ok c ∧ e ∈ (Options.ofJson c.compilerOptions).2 ∧
      h.readText p = .ok text ∧ Config.parse text = .ok own ∧
      d = optionError ⟨p.text, text⟩ (Dict.keys own.compilerOptions) e := by
  cases hload : Config.loadWithExtends h p with
  | error e =>
      rw [errors_of_load_error hload, List.mem_singleton] at hd
      have hmem := code_of_diagnostic e
      rw [← hd] at hmem
      rcases hcode with hcode | hcode <;> rw [hcode] at hmem <;> exact absurd hmem (by decide)
  | ok c =>
      obtain ⟨l, rest, hl, hchain, -⟩ := Config.exists_isChain_of_load hload
      obtain ⟨text, hread, hparse⟩ := hchain.reads
      rw [hl] at hread
      rw [errors_of_load hload hread hparse] at hd
      rcases List.mem_append.mp hd with hd | hd
      · obtain ⟨e, he, rfl⟩ := List.mem_map.mp hd
        exact ⟨c, text, l.2, e, rfl, he, hread, hparse, rfl⟩
      · have hmem := code_of_mem_rootFiles hd
        rcases hcode with hcode | hcode <;> rw [hcode] at hmem <;> exact absurd hmem (by decide)

/-- An error of a refused option that has a place has the first one, from the key of the options on, at
which the name of the option stands in quotes. This is the key of the option exactly if all other such
places come after one of its keys, and in a text without escapes there is a key from that place on. -/
theorem option_error_at_key_iff (h : Host) (p : Path) {d : Diagnostic} {start : Nat}
    (hd : d ∈ (read h p).errors) (hcode : d.code = 5024 ∨ d.code = 6046)
    (hstart : d.start = some start) : ∃ c text own e first,
      Config.loadWithExtends h p = .ok c ∧ e ∈ (Options.ofJson c.compilerOptions).2 ∧
      h.readText p = .ok text ∧ Config.parse text = .ok own ∧
      e.option.name ∈ Dict.keys own.compilerOptions ∧
      d = .spanning ⟨p.text, text⟩ start (byteLength (inQuotes e.option.name)) e.code e.message ∧
      Text.find? (inQuotes "compilerOptions") text.toList = some first ∧ first ≤ start ∧
      StandsAt (inQuotes e.option.name) text.toList start ∧
      (Config.IsOptionKey text e.option start ↔
        ∀ i, first ≤ i → StandsAt (inQuotes e.option.name) text.toList i →
          ¬ Config.IsOptionKey text e.option i →
            ∃ k, first ≤ k ∧ k < i ∧ Config.IsOptionKey text e.option k) ∧
      ('\\' ∉ text.toList → ∃ k, start ≤ k ∧ Config.IsOptionKey text e.option k) := by
  obtain ⟨c, text, own, e, hload, he, hread, hparse, rfl⟩ := exists_optionError hd hcode
  have hown : e.option.name ∈ Dict.keys own.compilerOptions := by
    by_contra hnot
    simp [optionError, hnot, Diagnostic.global] at hstart
  have hplace : keyPlace? text e.option.name =
      some (start, byteLength (inQuotes e.option.name)) := by
    rw [optionError, if_pos (List.contains_iff_mem.mpr hown)] at hstart
    cases hfound : keyPlace? text e.option.name with
    | none => simp [hfound, Diagnostic.global] at hstart
    | some place =>
        rw [hfound] at hstart
        obtain ⟨start', length⟩ := place
        cases hstart
        rw [(place_of_keyPlace? hfound).1]
  obtain ⟨-, first, hfirst, hle, hstands, hmin⟩ := place_of_keyPlace? hplace
  refine ⟨c, text, own, e, first, hload, he, hread, hparse, hown, ?_, hfirst, hle, hstands, ?_, ?_⟩
  · rw [optionError, if_pos (List.contains_iff_mem.mpr hown)]
    simp only [hplace]
  · constructor
    · intro hkey i hi hi' hnot
      exact ⟨start, hle, Nat.lt_of_le_of_ne (hmin i hi hi') fun heq => hnot (heq ▸ hkey), hkey⟩
    · intro hothers
      by_contra hnot
      obtain ⟨k, hk, hlt, hkey⟩ := hothers start hle hstands hnot
      exact Nat.not_le.mpr hlt (hmin k hk hkey.standsAt)
  · intro hplain
    obtain ⟨first', k, hfirst', hk, hkey⟩ := Config.exists_isOptionKey hparse hown hplain
    cases hfirst.symm.trans hfirst'
    exact ⟨k, hmin k hk hkey.standsAt, hkey⟩

/-- The option is refused in a file that has a comment after it. -/
theorem option_error_at_key_iff_of_target :
    let text := "\x7b\"compilerOptions\": \x7b\"target\": \"ES1999\" /* \"target\" */\x7d, \"files\": []\x7d"
    let h : Host := { disk := ⟨[(["v"], .dir), (["v", "tsconfig.json"], .file (.text text) none)]⟩ }
    ∃ d ∈ (read h ⟨"/v/tsconfig.json"⟩).errors, d.code = 6046 ∧ d.start = some 21 ∧
      Config.IsOptionKey text .target 21 ∧ ∃ first,
      Text.find? (inQuotes "compilerOptions") text.toList = some first ∧
      ∀ i, first ≤ i → StandsAt (inQuotes "target") text.toList i →
        ¬ Config.IsOptionKey text .target i →
          ∃ k, first ≤ k ∧ k < i ∧ Config.IsOptionKey text .target k := by
  intro text h
  have herror : ∃ d ∈ (read h ⟨"/v/tsconfig.json"⟩).errors, d.code = 6046 ∧ d.start = some 21 := by
    decide +kernel
  obtain ⟨d, hd, hcode, hstart⟩ := herror
  obtain ⟨c, text', own, e, first, -, -, hread, hparse, hown, -, hfirst, -, -, hkey, -⟩ :=
    option_error_at_key_iff h ⟨"/v/tsconfig.json"⟩ hd (.inr hcode) hstart
  have htext : h.readText ⟨"/v/tsconfig.json"⟩ = .ok text := toOption_eq_some.mp (by decide +kernel)
  cases htext.symm.trans hread
  have hkeys : (Config.parse text).toOption.map (fun c => Dict.keys c.compilerOptions) =
      some ["target"] := by decide +kernel
  rw [hparse] at hkeys
  have hnames : Dict.keys own.compilerOptions = [CompilerOption.target.name] := Option.some.inj hkeys
  rw [hnames, List.mem_singleton] at hown
  rw [CompilerOption.name_injective hown] at hkey
  have hplace : Config.IsOptionKey text .target 21 := by decide +kernel
  exact ⟨d, hd, hcode, hstart, hplace, first, hfirst, hkey.mp hplace⟩

/-- The name stands before the key: as a value, and in a comment. -/
theorem option_errors_are_shown_elsewhere :
    let errors := fun text => (read
      { disk := ⟨[(["v"], .dir), (["v", "tsconfig.json"], .file (.text text) none)]⟩ }
      ⟨"/v/tsconfig.json"⟩).errors.map fun d => (d.code, d.start)
    let value := "\x7b\"compilerOptions\": \x7b\"outDir\": \"target\", \"target\": \"ES1999\"\x7d, \"files\": []\x7d"
    let comment := "\x7b\"compilerOptions\": \x7b/*\"target\"*/ \"target\": \"ES1999\"\x7d, \"files\": []\x7d"
    (errors value = [(6046, some 31)] ∧ ¬ Config.IsOptionKey value .target 31 ∧
      Config.IsOptionKey value .target 41) ∧
    errors comment = [(6046, some 23)] ∧ ¬ Config.IsOptionKey comment .target 23 ∧
      Config.IsOptionKey comment .target 34 := by
  decide +kernel

end Project

end ScriptWorks

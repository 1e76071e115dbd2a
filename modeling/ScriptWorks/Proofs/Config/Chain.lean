import ScriptWorks.Config.Extends
import ScriptWorks.Proofs.Json.Canonical
import ScriptWorks.Proofs.Path.Count

/-!
# Chains of configurations

A configuration that extends others is loaded from the far end of the chain. The result is described
from the near end: every option and every list comes from the first file of the chain that has it.
-/

namespace ScriptWorks.Config

/-! ## Chains -/

/-- A configuration file: its path, and what it says. -/
abbrev Link := Path × Config

/-- The files of a chain in order: each one names the next as its base, the last one names none. -/
inductive IsChain (h : Host) : List Link → Prop
  | last {p text c} : h.readText p = .ok text → parse text = .ok c → c.extends? = none →
      IsChain h [(p, c)]
  | link {p text c name q rest} : h.readText p = .ok text → parse text = .ok c →
      c.extends? = some name → basePath? h (dirOf p) name = some q.1 → IsChain h (q :: rest) →
      IsChain h ((p, c) :: q :: rest)

/-- What a file itself says of an option; a path is seen from the directory of the file. -/
def ownOption (k : String) (l : Link) : Option Json :=
  match Dict.get? l.2.compilerOptions k with
  | some (.str raw) =>
    if k ∈ ["outDir", "rootDir", "baseUrl"] then
      some (.str ((dirOf l.1).join ⟨raw⟩).normalize.text)
    else some (.str raw)
  | v => v

/-- A configuration takes everything from the first file of a chain that has it. -/
structure Inherits (chain : List Link) (c : Config) : Prop where
  option : ∀ k, Dict.get? c.compilerOptions k = chain.findSome? (ownOption k)
  includes : c.includes = chain.findSome? (·.2.includes)
  excludes : c.excludes = chain.findSome? (·.2.excludes)
  files : c.files = chain.findSome? (·.2.files)
  extends? : c.extends? = none
  specDir : some c.specDir = ((chain.find? (·.2.hasSpecs)).or chain.head?).map fun l => dirOf l.1

/-! ## Single files -/

theorem get?_map_value {α β : Type} (f : String → α → β) (d : Dict α) (k : String) :
    Dict.get? (d.map fun e => (e.1, f e.1 e.2)) k = (Dict.get? d k).map (f k) := by
  induction d with
  | nil => rfl
  | cons e d ih =>
      rw [List.map_cons, Dict.get?_cons, Dict.get?_cons, ih]
      by_cases hk : e.1 = k <;> simp [hk]

theorem anchorOptions_eq (dir : Path) (options : Dict Json) :
    anchorOptions dir options = options.map fun e =>
      (e.1, if pathOptions.any (·.name = e.1) then anchorValue dir e.2 else e.2) := by
  refine List.map_congr_left fun e _ => ?_
  by_cases hk : pathOptions.any (·.name = e.1)
  · simp only [hk, if_true]
  · simp only [hk, if_false, Bool.false_eq_true]

theorem any_pathOptions (k : String) :
    pathOptions.any (·.name = k) = decide (k ∈ ["outDir", "rootDir", "baseUrl"]) := by
  have hpaths : pathOptions = [.outDir, .rootDir, .baseUrl] := by decide
  rw [hpaths, Bool.eq_iff_iff]
  simp only [List.any_cons, List.any_nil, CompilerOption.name, Bool.or_false, Bool.or_eq_true,
    decide_eq_true_eq, List.mem_cons, List.not_mem_nil, or_false, eq_comm (b := k)]

theorem get?_anchorOptions (p : Path) (c : Config) (k : String) :
    Dict.get? (anchorOptions (dirOf p) c.compilerOptions) k = ownOption k (p, c) := by
  rw [anchorOptions_eq, get?_map_value fun k v =>
    if pathOptions.any (·.name = k) then anchorValue (dirOf p) v else v, any_pathOptions]
  unfold ownOption
  by_cases hk : k ∈ ["outDir", "rootDir", "baseUrl"]
  · simp only [hk, decide_true, if_true]
    cases hget : Dict.get? c.compilerOptions k with
    | none => rfl
    | some v => cases v <;> rfl
  · simp only [hk, decide_false, Bool.false_eq_true, if_false]
    cases hget : Dict.get? c.compilerOptions k with
    | none => rfl
    | some v => cases v <;> rfl

theorem keys_anchorOptions (dir : Path) (options : Dict Json) :
    Dict.keys (anchorOptions dir options) = Dict.keys options := by
  rw [anchorOptions_eq, Dict.keys, List.map_map]
  rfl

theorem sorted_of_optionsMember {root options : Dict Json} (hr : Json.CanonicalMembers root)
    (h : optionsMember root = .ok options) : Dict.Sorted options := by
  unfold optionsMember at h
  split at h
  · cases h
    exact .nil
  · cases h
    exact .nil
  · rename_i members hmembers
    cases h
    exact (Json.canonical_obj_iff.mp (hr.2 _ _ hmembers)).1
  · cases h

theorem exists_of_parse {text : String} {c : Config} (h : parse text = .ok c) :
    ∃ root, Jsonc.parse text = .ok (.obj root) ∧ ofMembers root = .ok c := by
  unfold parse at h
  split at h
  case h_2 => cases h
  case h_1 v hparse =>
    unfold ofJson at h
    cases v with
    | obj root => exact ⟨root, hparse, h⟩
    | _ => cases h

/-- Every member that is read has been understood. -/
theorem members_of_ofMembers {root : Dict Json} {c : Config} (h : ofMembers root = .ok c) :
    optionsMember root = .ok c.compilerOptions ∧
      (∀ key ∈ ["include", "exclude", "files"], ∃ ss, stringList root key = .ok ss) ∧
      extendsMember root = .ok c.extends? := by
  unfold ofMembers at h
  obtain ⟨options, hoptions, h⟩ := bind_eq_ok.mp h
  obtain ⟨includes, hincludes, h⟩ := bind_eq_ok.mp h
  obtain ⟨excludes, hexcludes, h⟩ := bind_eq_ok.mp h
  obtain ⟨files, hfiles, h⟩ := bind_eq_ok.mp h
  obtain ⟨base, hbase, h⟩ := bind_eq_ok.mp h
  cases h
  refine ⟨hoptions, ?_, hbase⟩
  simp only [List.forall_mem_cons]
  exact ⟨⟨_, hincludes⟩, ⟨_, hexcludes⟩, ⟨_, hfiles⟩, nofun⟩

theorem sorted_of_parse {text : String} {c : Config} (h : parse text = .ok c) :
    Dict.Sorted c.compilerOptions := by
  obtain ⟨root, hparse, hroot⟩ := exists_of_parse h
  exact sorted_of_optionsMember (Json.canonical_obj_iff.mp (Jsonc.canonical_of_parse hparse))
    (members_of_ofMembers hroot).1

/-- A file as it is loaded: its paths no longer depend on its directory. -/
def anchored (l : Link) : Config :=
  { l.2 with compilerOptions := anchorOptions (dirOf l.1) l.2.compilerOptions, specDir := dirOf l.1 }

theorem load_eq {h : Host} {p : Path} {text : String} {c : Config} (hread : h.readText p = .ok text)
    (hparse : parse text = .ok c) : load h p = .ok (anchored (p, c)) := by
  unfold load
  simp only [hread, hparse]
  rfl

/-! ## Inheritance -/

theorem findSome?_cons_eq_or {α β : Type} (f : α → Option β) (a : α) (as : List α) :
    (a :: as).findSome? f = (f a).or (as.findSome? f) := by
  rw [List.findSome?_cons]
  cases f a <;> rfl

theorem inherits_singleton {l : Link} (h : l.2.extends? = none) : Inherits [l] (anchored l) where
  option k := by rw [anchored, get?_anchorOptions, List.findSome?_singleton]
  includes := by simp [anchored]
  excludes := by simp [anchored]
  files := by simp [anchored]
  extends? := h
  specDir := by
    cases hs : l.2.hasSpecs <;> simp [hs, anchored]

theorem Inherits.hasSpecs_eq {chain : List Link} {c : Config} (h : Inherits chain c) :
    c.hasSpecs = chain.any (·.2.hasSpecs) := by
  unfold hasSpecs
  rw [h.includes, h.excludes, h.files]
  clear h
  induction chain with
  | nil => rfl
  | cons l chain ih =>
      simp only [findSome?_cons_eq_or, Option.isSome_or, List.any_cons, ← ih]
      ac_rfl

theorem Inherits.merge {l q : Link} {rest : List Link} {base : Config}
    (hl : Dict.Sorted l.2.compilerOptions) (h : Inherits (q :: rest) base) :
    Inherits (l :: q :: rest) (merge base { anchored l with extends? := none }) where
  option k := by
    have hnodup : (Dict.keys (anchored l).compilerOptions).Nodup := by
      rw [anchored, keys_anchorOptions]
      exact hl.nodup
    have hown : Dict.get? (anchored l).compilerOptions k = ownOption k l :=
      get?_anchorOptions l.1 l.2 k
    rw [findSome?_cons_eq_or, ← h.option, ← hown]
    exact Dict.get?_overlay hnodup base.compilerOptions k
  includes := by
    rw [findSome?_cons_eq_or, ← h.includes]
    rfl
  excludes := by
    rw [findSome?_cons_eq_or, ← h.excludes]
    rfl
  files := by
    rw [findSome?_cons_eq_or, ← h.files]
    rfl
  extends? := rfl
  specDir := by
    have htop : ({ anchored l with extends? := none } : Config).hasSpecs = l.2.hasSpecs := rfl
    have hbase := h.specDir
    unfold Config.merge
    rw [htop, h.hasSpecs_eq]
    -- The lists of the extending file count, else those of the first file below it that has some.
    cases hs : l.2.hasSpecs with
    | true => simp [hs, anchored]
    | false =>
        cases hany : (q :: rest).any (·.2.hasSpecs) with
        | true =>
            obtain ⟨found, hfound⟩ := Option.isSome_iff_exists.mp
              ((List.find?_isSome (p := fun l : Link => l.2.hasSpecs)).mpr (List.any_eq_true.mp hany))
            rw [hfound] at hbase
            rw [List.find?_cons_of_neg (by simp [hs]), hfound]
            exact hbase
        | false =>
            have hnone : (q :: rest).find? (·.2.hasSpecs) = none :=
              List.find?_eq_none.mpr (List.any_eq_false.mp hany)
            rw [List.find?_cons_of_neg (by simp [hs]), hnone]
            rfl

/-! ## Loading -/

theorem loadChain_of_last {h : Host} {p : Path} {text : String} {c : Config} (fuel : Nat)
    {visited : List Path} (hnew : p.normalize ∉ visited) (hread : h.readText p = .ok text)
    (hparse : parse text = .ok c) (hextends : c.extends? = none) :
    loadChain h (fuel + 1) visited p = .ok (anchored (p, c)) := by
  have hext : (anchored (p, c)).extends? = none := hextends
  have hnew : visited.contains p.normalize = false := by simpa using hnew
  simp only [loadChain, hnew, Bool.false_eq_true, if_false, load_eq hread hparse, hext]

theorem loadChain_of_link {h : Host} {p q : Path} {text name : String} {c : Config} (fuel : Nat)
    {visited : List Path} (hnew : p.normalize ∉ visited) (hread : h.readText p = .ok text)
    (hparse : parse text = .ok c) (hextends : c.extends? = some name)
    (hbase : basePath? h (dirOf p) name = some q) :
    loadChain h (fuel + 1) visited p = (loadChain h fuel (p.normalize :: visited) q).map
      fun base => merge base { anchored (p, c) with extends? := none } := by
  have hext : (anchored (p, c)).extends? = some name := hextends
  have hnew : visited.contains p.normalize = false := by simpa using hnew
  simp only [loadChain, hnew, Bool.false_eq_true, if_false, load_eq hread hparse, hext, hbase]
  cases loadChain h fuel (p.normalize :: visited) q <;> rfl

/-- A chain is loaded as long as the fuel lasts and no file of it was visited before. -/
theorem loadChain_of_isChain {h : Host} {chain : List Link} (hchain : IsChain h chain)
    (hdistinct : (chain.map (·.1.normalize)).Nodup) {fuel : Nat} (hfuel : chain.length ≤ fuel)
    {visited : List Path} (hfresh : ∀ l ∈ chain, l.1.normalize ∉ visited) :
    ∃ c, (∀ l ∈ chain.head?, loadChain h fuel visited l.1 = .ok c) ∧ Inherits chain c := by
  induction hchain generalizing fuel visited with
  | @last p text c hread hparse hextends =>
      obtain ⟨fuel, rfl⟩ : ∃ n, fuel = n + 1 := Nat.exists_eq_succ_of_ne_zero (by simp at hfuel; omega)
      refine ⟨anchored (p, c), fun l hl => ?_, inherits_singleton hextends⟩
      cases hl
      exact loadChain_of_last fuel (hfresh (p, c) List.mem_cons_self) hread hparse hextends
  | @link p text c name q rest hread hparse hextends hbase hrest ih =>
      obtain ⟨fuel, rfl⟩ : ∃ n, fuel = n + 1 := Nat.exists_eq_succ_of_ne_zero (by simp at hfuel; omega)
      rw [List.map_cons, List.nodup_cons] at hdistinct
      obtain ⟨hp, hdistinct⟩ := hdistinct
      -- The file is visited now, and by its path it is none of those that follow.
      have hfresh' : ∀ l ∈ q :: rest, l.1.normalize ∉ p.normalize :: visited := by
        intro l hl hmem
        rcases List.mem_cons.mp hmem with heq | hmem
        · exact hp (List.mem_map.mpr ⟨l, hl, heq⟩)
        · exact hfresh l (List.mem_cons_of_mem _ hl) hmem
      obtain ⟨base, hload, hinherits⟩ := ih hdistinct (Nat.le_of_succ_le_succ hfuel) hfresh'
      refine ⟨merge base { anchored (p, c) with extends? := none }, fun l hl => ?_,
        hinherits.merge (l := (p, c)) (sorted_of_parse hparse)⟩
      cases hl
      rw [loadChain_of_link fuel (hfresh (p, c) List.mem_cons_self) hread hparse hextends hbase,
        hload q rfl]
      rfl

theorem IsChain.exists_readText {h : Host} {chain : List Link} (hchain : IsChain h chain) {l : Link}
    (hl : l ∈ chain) : ∃ text, h.readText l.1 = .ok text := by
  induction hchain with
  | last hread _ _ =>
      cases List.mem_singleton.mp hl
      exact ⟨_, hread⟩
  | link hread _ _ _ _ ih =>
      rcases List.mem_cons.mp hl with rfl | hl
      · exact ⟨_, hread⟩
      · exact ih hl

theorem chainLimit_ne_zero : chainLimit ≠ 0 := by
  unfold chainLimit
  generalize Disk.maxPathLength = n
  exact Nat.pos_iff_ne_zero.mp (Nat.pow_pos (by decide))

/-- There are not more files with different normal paths than the limit. -/
theorem length_le_of_distinct {ps : List Path} (hdistinct : (ps.map Path.normalize).Nodup)
    (hshort : ∀ p ∈ ps, p.text.utf8ByteSize ≤ Disk.maxPathLength) : ps.length ≤ chainLimit := by
  have hpaths : ps.Nodup :=
    (List.pairwise_map.mp hdistinct).imp fun hne heq => hne (congrArg Path.normalize heq)
  unfold chainLimit
  exact Path.length_le_of_nodup hpaths hshort

/-- No chain of different files is longer than the limit. -/
theorem IsChain.length_le {h : Host} {chain : List Link} (hchain : IsChain h chain)
    (hdistinct : (chain.map (·.1.normalize)).Nodup) : chain.length ≤ chainLimit := by
  have hle := @length_le_of_distinct (chain.map Prod.fst) (by rwa [List.map_map])
    fun p hp => by
      obtain ⟨l, hl, rfl⟩ := List.mem_map.mp hp
      obtain ⟨text, hread⟩ := hchain.exists_readText hl
      exact Host.length_le_of_readText hread
  rwa [List.length_map] at hle

/-- A chain of different files is loaded as the configuration that takes everything from the first
file that has it. -/
theorem chain_loads_first_of_each {h : Host} {l : Link} {rest : List Link}
    (hchain : IsChain h (l :: rest)) (hdistinct : ((l :: rest).map (·.1.normalize)).Nodup) :
    ∃ c, loadWithExtends h l.1 = .ok c ∧
      (∀ k, Dict.get? c.compilerOptions k = (l :: rest).findSome? (ownOption k)) ∧
      c.includes = (l :: rest).findSome? (·.2.includes) ∧
      c.excludes = (l :: rest).findSome? (·.2.excludes) ∧
      c.files = (l :: rest).findSome? (·.2.files) ∧
      c.extends? = none ∧
      c.specDir = dirOf (((l :: rest).find? (·.2.hasSpecs)).getD l).1 := by
  obtain ⟨c, hload, hc⟩ := loadChain_of_isChain hchain hdistinct (hchain.length_le hdistinct)
    (fun _ _ => List.not_mem_nil : ∀ k ∈ l :: rest, k.1.normalize ∉ [])
  refine ⟨c, hload l rfl, hc.option, hc.includes, hc.excludes, hc.files, hc.extends?, ?_⟩
  have hdir := hc.specDir
  cases hfind : (l :: rest).find? (·.2.hasSpecs) <;> rw [hfind] at hdir <;> exact Option.some.inj hdir

/-- A base in another directory sets the output directory and the list of sources. -/
theorem chain_loads_first_of_each_of_two :
    let text := "\x7b\"extends\": \"./base/b\", \"compilerOptions\": \x7b\"strict\": true\x7d\x7d"
    let baseText := "\x7b\"compilerOptions\": \x7b\"outDir\": \"out\"\x7d, \"include\": [\"src\"]\x7d"
    let p : Path := ⟨"/p/tsconfig.json"⟩
    let q : Path := ⟨"/p/./base/b.json"⟩
    let h : Host :=
      { disk := ⟨[(["p"], .dir), (["p", "base"], .dir),
          (["p", "tsconfig.json"], .file (.text text) none),
          (["p", "base", "b.json"], .file (.text baseText) none)]⟩ }
    ∃ c base merged, IsChain h [(p, c), (q, base)] ∧ p.normalize ≠ q.normalize ∧
      loadWithExtends h p = .ok merged ∧
      Dict.get? merged.compilerOptions "outDir" = some (.str "/p/base/out") ∧
      merged.includes = some ["src"] ∧ merged.specDir = ⟨"/p/./base"⟩ := by
  intro text baseText p q h
  have hread : h.readText p = .ok text := toOption_eq_some.mp (by decide +kernel)
  have hreadBase : h.readText q = .ok baseText := toOption_eq_some.mp (by decide +kernel)
  have hbase : basePath? h (dirOf p) "./base/b" = some q := by decide +kernel
  have hne : p.normalize ≠ q.normalize := by decide +kernel
  have htop : (parse text).toOption.map (fun c =>
      (c.extends?, (ownOption "outDir" (p, c)).isSome, c.includes, c.hasSpecs)) =
    some (some "./base/b", false, none, false) := by decide +kernel
  have hbottom : (parse baseText).toOption.map (fun c =>
      (c.extends?, (ownOption "outDir" (q, c)).bind Json.asString?, c.includes, c.hasSpecs)) =
    some (none, some "/p/base/out", some ["src"], true) := by decide +kernel
  obtain ⟨c, hc, htop⟩ := Option.map_eq_some_iff.mp htop
  obtain ⟨base, hb, hbottom⟩ := Option.map_eq_some_iff.mp hbottom
  simp only [Prod.mk.injEq] at htop hbottom
  obtain ⟨hextends, hown, hincludes, hspecs⟩ := htop
  obtain ⟨hlast, hbaseOwn, hbaseIncludes, hbaseSpecs⟩ := hbottom
  obtain ⟨v, hv, hstr⟩ := Option.bind_eq_some_iff.mp hbaseOwn
  have hchain : IsChain h [(p, c), (q, base)] :=
    .link hread (toOption_eq_some.mp hc) hextends hbase
      (.last hreadBase (toOption_eq_some.mp hb) hlast)
  obtain ⟨merged, hload, hoption, hinc, -, -, -, hdir⟩ :=
    chain_loads_first_of_each hchain (by simpa using hne)
  refine ⟨c, base, merged, hchain, hne, hload, ?_, ?_, ?_⟩
  · have hnone : ownOption "outDir" (p, c) = none := by simpa using hown
    cases v with
    | str s =>
        cases hstr
        rw [hoption, List.findSome?_cons, hnone, List.findSome?_singleton, hv]
    | _ => cases hstr
  · simp [hinc, hincludes, hbaseIncludes]
  · have hdirs : dirOf q = ⟨"/p/./base"⟩ := by decide +kernel
    simpa [hspecs, hbaseSpecs, hdirs] using hdir

end ScriptWorks.Config

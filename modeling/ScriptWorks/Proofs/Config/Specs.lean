import ScriptWorks.Config.Project
import ScriptWorks.Proofs.Config.Chain

/-!
# Directories of inherited lists

The lists of a configuration may come from different files of its chain, while all of them are seen
from one directory: that of the first file which has a list of any kind. A list that comes from a file
further on is seen from the wrong place, unless that file lies in the same directory.
-/

namespace ScriptWorks.Config

/-- The lists that select root files. -/
inductive SpecList where
  | includes
  | excludes
  | files
deriving DecidableEq

/-- A list as a configuration has it. -/
def SpecList.of? : SpecList → Config → Option (List String)
  | .includes, c => c.includes
  | .excludes, c => c.excludes
  | .files, c => c.files

/-- The first file of a chain that has a list. -/
def supplier? (k : SpecList) (chain : List Link) : Option Link :=
  chain.find? fun l => (k.of? l.2).isSome

theorem hasSpecs_of_isSome {k : SpecList} {c : Config} (h : (k.of? c).isSome = true) :
    c.hasSpecs = true := by
  unfold hasSpecs
  cases k with
  | includes =>
      have hin : c.includes.isSome = true := h
      rw [hin, Bool.true_or, Bool.true_or]
  | excludes =>
      have hex : c.excludes.isSome = true := h
      rw [hex, Bool.or_true, Bool.true_or]
  | files =>
      have hfiles : c.files.isSome = true := h
      rw [hfiles, Bool.or_true]

/-- What comes from the first file that has something is what that file has. -/
theorem findSome?_of_find? {α β : Type} {f : α → Option β} {as : List α} {a : α}
    (h : as.find? (fun a => (f a).isSome) = some a) : as.findSome? f = f a := by
  induction as with
  | nil => cases h
  | cons b as ih =>
      rw [List.find?_cons] at h
      rw [findSome?_cons_eq_or]
      cases hb : f b with
      | some v =>
          rw [hb] at h
          cases h
          rw [hb, Option.some_or]
      | none =>
          rw [hb] at h
          rw [Option.none_or]
          exact ih h

/-- Every list of a loaded chain is that of the first file which has it, and all lists are seen from
the directory of the first file which has any. So a list is seen from the directory of its own file
where all files that have lists lie in one directory. -/
theorem lists_seen_from_first_with_any {h : Host} {l : Link} {rest : List Link}
    (hchain : IsChain h (l :: rest)) (hdistinct : ((l :: rest).map (·.1.normalize)).Nodup) :
    ∃ c, loadWithExtends h l.1 = .ok c ∧
      ∀ k supplier, supplier? k (l :: rest) = some supplier →
        k.of? c = k.of? supplier.2 ∧
        (∃ first, (l :: rest).find? (·.2.hasSpecs) = some first ∧ c.specDir = dirOf first.1) ∧
        ((∀ m ∈ l :: rest, m.2.hasSpecs = true → dirOf m.1 = dirOf supplier.1) →
          c.specDir = dirOf supplier.1) := by
  obtain ⟨c, hload, hc⟩ := loadChain_of_isChain hchain hdistinct (hchain.length_le hdistinct)
    (fun _ _ => List.not_mem_nil : ∀ m ∈ l :: rest, m.1.normalize ∉ [])
  refine ⟨c, hload l rfl, ?_⟩
  intro k supplier hsupplier
  have hlist : k.of? c = k.of? supplier.2 := by
    have hfirst := findSome?_of_find? (f := fun m : Link => k.of? m.2) hsupplier
    cases k with
    | includes => exact hc.includes.trans hfirst
    | excludes => exact hc.excludes.trans hfirst
    | files => exact hc.files.trans hfirst
  have hmem : supplier ∈ l :: rest := List.mem_of_find?_eq_some hsupplier
  have hsome : (k.of? supplier.2).isSome = true :=
    List.find?_some (p := fun m : Link => (k.of? m.2).isSome) hsupplier
  obtain ⟨first, hfirst⟩ : ∃ first, (l :: rest).find? (·.2.hasSpecs) = some first :=
    Option.isSome_iff_exists.mp (List.find?_isSome.mpr ⟨supplier, hmem, hasSpecs_of_isSome hsome⟩)
  have hdir : c.specDir = dirOf first.1 := by
    have hmap := hc.specDir
    rw [hfirst] at hmap
    exact Option.some.inj hmap
  refine ⟨hlist, ⟨first, hfirst, hdir⟩, ?_⟩
  intro hone
  rw [hdir]
  exact hone first (List.mem_of_find?_eq_some hfirst)
    (List.find?_some (p := fun m : Link => m.2.hasSpecs) hfirst)

/-- The extending file excludes something, its base in another directory lists a file: this is seen
from the extending file. -/
theorem lists_seen_from_first_with_any_of_two :
    let text := "\x7b\"extends\": \"../base/tsconfig.json\", \"exclude\": [\"skip\"]\x7d"
    let baseText := "\x7b\"files\": [\"a.ts\"]\x7d"
    let p : Path := ⟨"/app/tsconfig.json"⟩
    let q : Path := ⟨"/app/../base/tsconfig.json"⟩
    let h : Host :=
      { disk := ⟨[(["app"], .dir), (["base"], .dir),
          (["app", "tsconfig.json"], .file (.text text) none),
          (["base", "tsconfig.json"], .file (.text baseText) none),
          (["base", "a.ts"], .file (.text "") none)]⟩ }
    ∃ c base merged, IsChain h [(p, c), (q, base)] ∧ p.normalize ≠ q.normalize ∧
      supplier? .files [(p, c), (q, base)] = some (q, base) ∧
      loadWithExtends h p = .ok merged ∧ merged.files = some ["a.ts"] ∧
      merged.specDir = ⟨"/app"⟩ ∧ dirOf q = ⟨"/app/../base"⟩ := by
  intro text baseText p q h
  have hread : h.readText p = .ok text := toOption_eq_some.mp (by decide +kernel)
  have hreadBase : h.readText q = .ok baseText := toOption_eq_some.mp (by decide +kernel)
  have hbase : basePath? h (dirOf p) "../base/tsconfig.json" = some q := by decide +kernel
  have hne : p.normalize ≠ q.normalize := by decide +kernel
  have htop : (parse text).toOption.map (fun c => (c.extends?, c.files, c.hasSpecs)) =
    some (some "../base/tsconfig.json", none, true) := by decide +kernel
  have hbottom : (parse baseText).toOption.map (fun c => (c.extends?, c.files)) =
    some (none, some ["a.ts"]) := by decide +kernel
  obtain ⟨c, hc, htop⟩ := Option.map_eq_some_iff.mp htop
  obtain ⟨base, hb, hbottom⟩ := Option.map_eq_some_iff.mp hbottom
  simp only [Prod.mk.injEq] at htop hbottom
  obtain ⟨hextends, hfiles, hspecs⟩ := htop
  obtain ⟨hlast, hbaseFiles⟩ := hbottom
  have hchain : IsChain h [(p, c), (q, base)] :=
    .link hread (toOption_eq_some.mp hc) hextends hbase
      (.last hreadBase (toOption_eq_some.mp hb) hlast)
  have hsupplier : supplier? .files [(p, c), (q, base)] = some (q, base) := by
    simp [supplier?, SpecList.of?, hfiles, hbaseFiles]
  obtain ⟨merged, hload, hlists⟩ := lists_seen_from_first_with_any hchain (by simpa using hne)
  obtain ⟨hlist, ⟨first, hfirst, hdir⟩, -⟩ := hlists .files (q, base) hsupplier
  refine ⟨c, base, merged, hchain, hne, hsupplier, hload, hlist.trans hbaseFiles, ?_, ?_⟩
  · have htopFirst : (p, c) = first := by simpa [hspecs] using hfirst
    have happ : dirOf p = ⟨"/app"⟩ := by decide +kernel
    rw [hdir, ← htopFirst]
    exact happ
  · decide +kernel

/-- The listed file of the base is there, but is looked for beside the extending file. -/
theorem listed_file_of_base_not_found :
    let text := "\x7b\"extends\": \"../base/tsconfig.json\", \"exclude\": [\"skip\"]\x7d"
    let baseText := "\x7b\"files\": [\"a.ts\"]\x7d"
    let h : Host :=
      { disk := ⟨[(["app"], .dir), (["base"], .dir),
          (["app", "tsconfig.json"], .file (.text text) none),
          (["base", "tsconfig.json"], .file (.text baseText) none),
          (["base", "a.ts"], .file (.text "") none)]⟩ }
    let project := Project.read h ⟨"/app/tsconfig.json"⟩
    h.isFile ⟨"/base/a.ts"⟩ = true ∧ project.fileNames = [] ∧
      project.errors.map (fun d => (d.code, d.message.flatten)) =
        [(6053, "File '/app/a.ts' not found.")] := by
  decide +kernel

end ScriptWorks.Config

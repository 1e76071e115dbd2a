import ScriptWorks.FileSystem.Host
import ScriptWorks.Proofs.Failing

/-!
# The number of paths

Paths of bounded length are finite in number, so a list of different paths that can be read is not
longer than a certain number.
-/

namespace ScriptWorks

/-- Bytes as the digits of a number, the first one lowest. No digit is 0. -/
def byteCode : List UInt8 → Nat
  | [] => 0
  | b :: bs => b.toNat + 1 + 257 * byteCode bs

theorem byteCode_inj {as bs : List UInt8} (h : byteCode as = byteCode bs) : as = bs := by
  induction as generalizing bs with
  | nil =>
      cases bs with
      | nil => rfl
      | cons b bs => simp only [byteCode] at h; omega
  | cons a as ih =>
      cases bs with
      | nil => simp only [byteCode] at h; omega
      | cons b bs =>
          have ha := a.toNat_lt
          have hb := b.toNat_lt
          simp only [byteCode] at h
          have hab : a.toNat = b.toNat := by omega
          have hrest : byteCode as = byteCode bs := by omega
          rw [UInt8.toNat_inj.mp hab, ih hrest]

theorem byteCode_lt (bs : List UInt8) : byteCode bs < Nat.pow 257 bs.length := by
  induction bs with
  | nil => simp [byteCode]
  | cons b bs ih =>
      have hb := b.toNat_lt
      have hpow : Nat.pow 257 (b :: bs).length = Nat.pow 257 bs.length * 257 := rfl
      rw [hpow, byteCode]
      omega

namespace Path

def code (p : Path) : Nat := byteCode p.text.toByteArray.data.toList

theorem code_inj {p q : Path} (h : p.code = q.code) : p = q := by
  have hbytes : p.text.toByteArray = q.text.toByteArray :=
    ByteArray.ext (Array.toList_inj.mp (byteCode_inj h))
  have htext := String.toByteArray_inj.mp hbytes
  cases p
  cases q
  cases htext
  rfl

theorem code_lt {p : Path} {n : Nat} (h : p.text.utf8ByteSize ≤ n) : p.code < Nat.pow 257 n := by
  refine Nat.lt_of_lt_of_le (byteCode_lt _) (Nat.pow_le_pow_right (by decide) ?_)
  rwa [Array.length_toList]

/-- There are not more different paths of at most `n` bytes. -/
theorem length_le_of_nodup {ps : List Path} {n : Nat} (hd : ps.Nodup)
    (hn : ∀ p ∈ ps, p.text.utf8ByteSize ≤ n) : ps.length ≤ Nat.pow 257 n := by
  have hcodes : (ps.map code).Nodup :=
    List.pairwise_map.mpr (hd.imp fun hne heq => hne (code_inj heq))
  have hsub : ps.map code ⊆ List.range (Nat.pow 257 n) := by
    intro k hk
    obtain ⟨p, hp, rfl⟩ := List.mem_map.mp hk
    exact List.mem_range.mpr (code_lt (hn p hp))
  simpa using hcodes.length_le_of_subset hsub

end Path

theorem Disk.length_le_of_checkPath {p : Path} {u : Unit} (h : checkPath p = .ok u) :
    p.text.utf8ByteSize ≤ maxPathLength := by
  unfold checkPath at h
  cases he : p.isEmpty with
  | true => simp [he] at h
  | false =>
      cases hn : p.chars.contains '\x00' with
      | true => simp only [he, hn, Bool.false_eq_true, if_false, if_true] at h; cases h
      | false =>
          simp only [he, hn, Bool.false_eq_true, if_false] at h
          by_cases hlong : maxPathLength < p.text.utf8ByteSize
          · simp only [hlong, if_true] at h
            cases h
          · exact Nat.not_lt.mp hlong

theorem Disk.length_le_of_node {d : Disk} {cwd : Location} {p : Path} {e : Location × Node}
    (h : d.node cwd p = .ok e) : p.text.utf8ByteSize ≤ maxPathLength := by
  unfold Disk.node Disk.locate at h
  obtain ⟨l, hl, -⟩ := bind_eq_ok.mp h
  obtain ⟨_, hcheck, -⟩ := bind_eq_ok.mp hl
  exact length_le_of_checkPath hcheck

theorem Host.length_le_of_readText {h : Host} {p : Path} {text : String}
    (hread : h.readText p = .ok text) : p.text.utf8ByteSize ≤ Disk.maxPathLength := by
  unfold Host.readText Disk.readText at hread
  obtain ⟨e, he, -⟩ := bind_eq_ok.mp hread
  exact Disk.length_le_of_node he

theorem Host.length_le_of_isFile {h : Host} {p : Path} (hfile : h.isFile p = true) :
    p.text.utf8ByteSize ≤ Disk.maxPathLength := by
  unfold Host.isFile Disk.isFile at hfile
  split at hfile
  case h_1 hnode => exact Disk.length_le_of_node hnode
  case h_2 => cases hfile

end ScriptWorks

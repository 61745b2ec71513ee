import Xv6.Fs.Names
import Xv6.Fs.Contents

/-!
# Directory entries

The contents of a directory as a list of entries, of which those with inode number 0 are
vacant. The others give inodes to names.
-/

namespace Xv6.Fs

open Function

open Mkfs (DIRSIZ T_DIR T_FILE ROOTINO)

/-- `struct dirent`; `fs.h:55-58`. -/
structure Dirent where
  inum : Nat
  name : Nat → UInt8

/-- The `struct dirent` in 16 bytes. -/
def Dirent.ofBytes (b : List UInt8) : Dirent where
  inum := (b.getD 0 0).toNat + 256 * (b.getD 1 0).toNat
  name := fun j ↦ b.getD (j + 2) 0

/-- The 16 bytes after `strncpy(de.name, name, DIRSIZ)` and `de.inum = inum`;
`fs.c:689-690`. -/
def direntBytes (inum : Nat) (name : Nat → UInt8) : List UInt8 :=
  [UInt8.ofNat inum, UInt8.ofNat (inum / 256)] ++ strncpy name DIRSIZ

/-- An entry: an inode number, 0 if the entry is vacant, and a name. -/
structure Entry where
  inum : Nat
  name : CString
  deriving DecidableEq

/-- The entry that a `struct dirent` makes. -/
def Dirent.entry (de : Dirent) : Entry := ⟨de.inum, stringAt de.name DIRSIZ⟩

/-- The `struct dirent` number `k` of a directory. -/
def direntAt (data : List UInt8) (k : Nat) : Dirent :=
  Dirent.ofBytes ((data.drop (16 * k)).take 16)

/-- The entries of a directory with the given contents. -/
def entries (data : List UInt8) : List Entry :=
  (List.range (data.length / 16)).map fun k ↦ (direntAt data k).entry

/-- The entry is one for the name. -/
def Entry.Names (n : CString) (e : Entry) : Prop := e.inum ≠ 0 ∧ e.name = n

instance (n : CString) (e : Entry) : Decidable (e.Names n) := inferInstanceAs (Decidable (_ ∧ _))

/-- The place of the first entry for a name. -/
def search (es : List Entry) (n : CString) : Option Nat := es.findIdx? fun e ↦ e.Names n

/-- The inode that a directory gives to a name. -/
def lookup (es : List Entry) (n : CString) : Option Nat :=
  (es.find? fun e ↦ e.Names n).map Entry.inum

/-- The place of the first vacant entry, or the end. -/
def vacancy (es : List Entry) : Nat := es.findIdx fun e ↦ e.inum = 0

/-- The entries with the one at place `k` replaced, or added at the end. -/
def put (es : List Entry) (k : Nat) (e : Entry) : List Entry := es.take k ++ e :: es.drop (k + 1)

/-- No name has two entries. -/
def Unique (es : List Entry) : Prop :=
  ∀ (j k : Nat) (e e' : Entry), es[j]? = some e → es[k]? = some e' → e.inum ≠ 0 → e'.inum ≠ 0 →
    e.name = e'.name → j = k

/-- The inodes that the entries name, as often as they do. -/
def named (es : List Entry) : Multiset Nat :=
  ((es.filter fun e ↦ e.inum ≠ 0).map Entry.inum : List Nat)

section

variable {es : List Entry} {e : Entry} {n : CString} {data bytes : List UInt8} {k : Nat}

/-! ### Bytes and entries -/

theorem length_entries (data : List UInt8) : (entries data).length = data.length / 16 := by
  rw [entries, List.length_map, List.length_range]

theorem length_direntBytes (inum : Nat) (name : Nat → UInt8) :
    (direntBytes inum name).length = 16 := by
  rw [direntBytes, List.length_append, length_strncpy]
  rfl

/-- What is written for an entry is read back, if the number is a `ushort`. -/
theorem entry_direntBytes {inum : Nat} (hi : inum < 65536) (name : Nat → UInt8) :
    (Dirent.ofBytes (direntBytes inum name)).entry = ⟨inum, stringAt name DIRSIZ⟩ := by
  have hinum : (UInt8.ofNat inum).toNat + 256 * (UInt8.ofNat (inum / 256)).toNat = inum := by
    rw [UInt8.toNat_ofNat', UInt8.toNat_ofNat']
    omega
  have hname : stringAt (fun j ↦ (direntBytes inum name).getD (j + 2) 0) DIRSIZ =
      stringAt name DIRSIZ := stringAt_strncpy name DIRSIZ
  show Entry.mk _ _ = _
  rw [Entry.mk.injEq]
  exact ⟨hinum, hname⟩

/-- A `struct dirent` of zeros is vacant. -/
theorem entry_zero : (Dirent.ofBytes (List.replicate 16 0)).entry = ⟨0, []⟩ := by decide

private theorem drop_overwrite_self (hk : 16 * k ≤ data.length) (hb : bytes.length = 16) :
    ((overwrite data (16 * k) bytes).drop (16 * k)).take 16 = bytes := by
  have hlen : (data.take (16 * k)).length = 16 * k := List.length_take_of_le hk
  rw [overwrite, List.append_assoc, List.drop_left' hlen, List.take_left' hb]

private theorem drop_overwrite_of_ne {m : Nat} (hk : 16 * k ≤ data.length) (hb : bytes.length = 16)
    (hne : m ≠ k) (hm : 16 * (m + 1) ≤ data.length) :
    ((overwrite data (16 * k) bytes).drop (16 * m)).take 16 =
      (data.drop (16 * m)).take 16 := by
  have hlen := @length_overwrite data bytes (16 * k) hk
  apply List.ext_getElem
  · rw [List.length_take, List.length_take, List.length_drop, List.length_drop, hlen]
    omega
  · intro j h1 h2
    rw [List.length_take, List.length_drop] at h2
    simp only [List.getElem_take, List.getElem_drop, overwrite, List.getElem_append,
      List.length_append, List.length_take]
    have hmin : min (16 * k) data.length = 16 * k := Nat.min_eq_left hk
    split
    · split
      · rfl
      · omega
    · congr 1
      omega

theorem getElem?_put (hk : k ≤ es.length) (m : Nat) :
    (put es k e)[m]? = if m = k then some e else es[m]? := by
  unfold put
  by_cases hm : m < k
  · rw [List.getElem?_append_left (by rw [List.length_take]; omega), List.getElem?_take_of_lt hm,
      if_neg (by omega)]
  · rw [List.getElem?_append_right (by rw [List.length_take]; omega), List.length_take,
      Nat.min_eq_left hk]
    by_cases he : m = k
    · rw [he, Nat.sub_self, if_pos rfl, List.getElem?_cons_zero]
    · obtain ⟨j, hj⟩ : ∃ j, m - k = j + 1 := ⟨m - k - 1, by omega⟩
      rw [hj, if_neg he, List.getElem?_cons_succ, List.getElem?_drop]
      congr 1
      omega

/-- Overwriting 16 bytes of a directory at a multiple of 16 puts one entry. -/
theorem entries_overwrite (hdvd : 16 ∣ data.length) (hk : k ≤ data.length / 16)
    (hb : bytes.length = 16) : entries (overwrite data (16 * k) bytes) =
      put (entries data) k (Dirent.ofBytes bytes).entry := by
  have hk' : 16 * k ≤ data.length := by omega
  have hlen := @length_overwrite data bytes (16 * k) hk'
  have hes := length_entries data
  apply List.ext_getElem?
  intro m
  rw [getElem?_put (by omega)]
  by_cases hm : m < (overwrite data (16 * k) bytes).length / 16
  · rw [entries, List.getElem?_map, List.getElem?_range hm, Option.map_some]
    by_cases he : m = k
    · rw [if_pos he, he, direntAt, drop_overwrite_self hk' hb]
    · rw [if_neg he, entries, List.getElem?_map, List.getElem?_range (by omega), Option.map_some,
        direntAt, direntAt, drop_overwrite_of_ne hk' hb he (by omega)]
  · rw [if_neg (by omega), List.getElem?_eq_none (by rw [length_entries]; omega),
      List.getElem?_eq_none (by omega)]

theorem dvd_overwrite (hdvd : 16 ∣ data.length) (hk : k ≤ data.length / 16)
    (hb : bytes.length = 16) : 16 ∣ (overwrite data (16 * k) bytes).length := by
  rw [length_overwrite (by omega)]
  omega

/-! ### The map from names to inodes -/

theorem mem_put (hk : k ≤ es.length) {e' : Entry} :
    e' ∈ put es k e ↔ e' = e ∨ ∃ m, m ≠ k ∧ es[m]? = some e' := by
  simp only [List.mem_iff_getElem?, getElem?_put hk]
  constructor
  · intro h
    obtain ⟨m, hm⟩ := h
    by_cases he : m = k
    · rw [if_pos he] at hm
      exact Or.inl (Option.some.inj hm).symm
    · rw [if_neg he] at hm
      exact Or.inr ⟨m, he, hm⟩
  · intro h
    cases h with
    | inl h => exact ⟨k, by rw [if_pos rfl, h]⟩
    | inr h =>
      obtain ⟨m, hne, hm⟩ := h
      exact ⟨m, by rw [if_neg hne, hm]⟩

theorem search_eq_none : search es n = none ↔ ∀ e ∈ es, ¬e.Names n := by
  simp [search]

theorem lookup_eq_none : lookup es n = none ↔ ∀ e ∈ es, ¬e.Names n := by
  simp [lookup]

/-- What `search` finds is an entry for the name, and the one that `lookup` takes. -/
theorem search_eq_some (h : search es n = some k) :
    ∃ e, es[k]? = some e ∧ e.Names n ∧ lookup es n = some e.inum := by
  obtain ⟨hk, hn, hfirst⟩ := List.findIdx?_eq_some_iff_getElem.mp h
  refine ⟨es[k], List.getElem?_eq_getElem hk, of_decide_eq_true hn, ?_⟩
  rw [lookup, Option.map_eq_some_iff]
  refine ⟨es[k], List.find?_eq_some_iff_getElem.mpr ⟨hn, k, hk, rfl, ?_⟩, rfl⟩
  intro j hj
  simpa using hfirst j hj

/-- In a directory without double names, an entry is found by its name. -/
theorem lookup_eq_some (hu : Unique es) {i : Nat} :
    lookup es n = some i ↔ ∃ e ∈ es, e.Names n ∧ e.inum = i := by
  rw [lookup, Option.map_eq_some_iff]
  constructor
  · intro h
    obtain ⟨e, he, hi⟩ := h
    have hn := List.find?_some he
    exact ⟨e, List.mem_of_find?_eq_some he, of_decide_eq_true hn, hi⟩
  · intro h
    obtain ⟨e, he, hn, hi⟩ := h
    cases hf : es.find? fun e ↦ e.Names n with
    | none =>
      have hno := List.find?_eq_none.mp hf e he
      exact absurd (decide_eq_true hn) hno
    | some e' =>
      have hdec := List.find?_some hf
      have hn' : e'.Names n := of_decide_eq_true hdec
      obtain ⟨j, hj⟩ := List.mem_iff_getElem?.mp he
      obtain ⟨j', hj'⟩ := List.mem_iff_getElem?.mp (List.mem_of_find?_eq_some hf)
      have hjj := hu j j' e e' hj hj' hn.1 hn'.1 (hn.2.trans hn'.2.symm)
      rw [hjj, hj'] at hj
      exact ⟨e', rfl, by rw [Option.some.inj hj, hi]⟩

theorem vacancy_le (es : List Entry) : vacancy es ≤ es.length := List.findIdx_le_length

/-- The entry at the vacancy is vacant. -/
theorem inum_vacancy (h : es[vacancy es]? = some e) : e.inum = 0 := by
  obtain ⟨hlt, he⟩ := List.getElem?_eq_some_iff.mp h
  rw [← he]
  apply of_decide_eq_true
  exact List.findIdx_getElem (p := fun e : Entry ↦ decide (e.inum = 0)) (w := hlt)

/-- A new entry in a vacant place keeps the names apart. -/
theorem Unique.put_new (hu : Unique es) (hk : k ≤ es.length) (hno : search es e.name = none) :
    Unique (put es k e) := by
  have hno' := search_eq_none.mp hno
  intro j m a b ha hb hai hbi hab
  rw [getElem?_put hk] at ha hb
  by_cases hj : j = k <;> by_cases hm : m = k
  · rw [hj, hm]
  · rw [if_pos hj] at ha
    rw [if_neg hm] at hb
    cases ha
    exact absurd ⟨hbi, hab.symm⟩ (hno' b (List.mem_of_getElem? hb))
  · rw [if_neg hj] at ha
    rw [if_pos hm] at hb
    cases hb
    exact absurd ⟨hai, hab⟩ (hno' a (List.mem_of_getElem? ha))
  · rw [if_neg hj] at ha
    rw [if_neg hm] at hb
    exact hu j m a b ha hb hai hbi hab

/-- Emptying an entry keeps the names apart. -/
theorem Unique.put_zero (hu : Unique es) (hk : k ≤ es.length) : Unique (put es k ⟨0, []⟩) := by
  intro j m a b ha hb hai hbi hab
  rw [getElem?_put hk] at ha hb
  by_cases hj : j = k
  · rw [if_pos hj] at ha
    cases ha
    exact absurd rfl hai
  · by_cases hm : m = k
    · rw [if_pos hm] at hb
      cases hb
      exact absurd rfl hbi
    · rw [if_neg hj] at ha
      rw [if_neg hm] at hb
      exact hu j m a b ha hb hai hbi hab

/-- A new entry gives the inode to its name and leaves the other names alone. -/
theorem lookup_put_new (hu : Unique es) (hk : k ≤ es.length)
    (hvac : ∀ e', es[k]? = some e' → e'.inum = 0) (hi : e.inum ≠ 0)
    (hno : search es e.name = none) :
    lookup (put es k e) = update (lookup es) e.name (some e.inum) := by
  have hu' := hu.put_new hk hno
  funext m
  apply Option.ext
  intro i
  rw [lookup_eq_some hu']
  simp only [mem_put hk]
  by_cases hm : m = e.name
  · rw [hm, update_self, Option.some.injEq]
    constructor
    · intro h
      obtain ⟨a, ha, hn, rfl⟩ := h
      cases ha with
      | inl ha => rw [ha]
      | inr ha =>
        obtain ⟨j, -, hj⟩ := ha
        exact absurd hn (search_eq_none.mp hno a (List.mem_of_getElem? hj))
    · intro h
      exact ⟨e, Or.inl rfl, ⟨hi, rfl⟩, h⟩
  · rw [update_of_ne hm, lookup_eq_some hu]
    constructor
    · intro h
      obtain ⟨a, ha, hn, rfl⟩ := h
      cases ha with
      | inl ha =>
        rw [ha] at hn
        exact absurd hn.2.symm hm
      | inr ha =>
        obtain ⟨j, -, hj⟩ := ha
        exact ⟨a, List.mem_of_getElem? hj, hn, rfl⟩
    · intro h
      obtain ⟨a, ha, hn, rfl⟩ := h
      obtain ⟨j, hj⟩ := List.mem_iff_getElem?.mp ha
      refine ⟨a, Or.inr ⟨j, ?_, hj⟩, hn, rfl⟩
      rintro rfl
      exact hn.1 (hvac a hj)

/-- Emptying the entry of a name takes the name away and leaves the other names alone. -/
theorem lookup_put_zero (hu : Unique es) (hs : search es n = some k) :
    lookup (put es k ⟨0, []⟩) = update (lookup es) n none := by
  obtain ⟨e, he, hen, -⟩ := search_eq_some hs
  have hk : k ≤ es.length := (List.getElem?_eq_some_iff.mp he).1.le
  have hu' := hu.put_zero hk
  funext m
  apply Option.ext
  intro i
  rw [lookup_eq_some hu']
  simp only [mem_put hk]
  by_cases hm : m = n
  · rw [hm, update_self]
    constructor
    · intro h
      obtain ⟨a, ha, hn, rfl⟩ := h
      cases ha with
      | inl ha =>
        rw [ha] at hn
        exact absurd rfl hn.1
      | inr ha =>
        obtain ⟨j, hne, hj⟩ := ha
        exact absurd (hu j k a e hj he hn.1 hen.1 (hn.2.trans hen.2.symm)) hne
    · intro h
      cases h
  · rw [update_of_ne hm, lookup_eq_some hu]
    constructor
    · intro h
      obtain ⟨a, ha, hn, rfl⟩ := h
      cases ha with
      | inl ha =>
        rw [ha] at hn
        exact absurd rfl hn.1
      | inr ha =>
        obtain ⟨j, -, hj⟩ := ha
        exact ⟨a, List.mem_of_getElem? hj, hn, rfl⟩
    · intro h
      obtain ⟨a, ha, hn, rfl⟩ := h
      obtain ⟨j, hj⟩ := List.mem_iff_getElem?.mp ha
      refine ⟨a, Or.inr ⟨j, ?_, hj⟩, hn, rfl⟩
      rintro rfl
      rw [he] at hj
      cases hj
      exact hm (hn.2.symm.trans hen.2)

/-! ### The inodes named -/

private theorem named_cons (e : Entry) (es : List Entry) :
    named (e :: es) = if e.inum = 0 then named es else e.inum ::ₘ named es := by
  unfold named
  by_cases h : e.inum = 0
  · rw [if_pos h, List.filter_cons_of_neg (by simpa using h)]
  · rw [if_neg h, List.filter_cons_of_pos (by simpa using h)]
    rfl

private theorem named_append (es es' : List Entry) : named (es ++ es') = named es + named es' := by
  rw [named, List.filter_append, List.map_append]
  rfl

theorem mem_named {i : Nat} : i ∈ named es ↔ i ≠ 0 ∧ ∃ e ∈ es, e.inum = i := by
  rw [named, Multiset.mem_coe, List.mem_map]
  simp only [List.mem_filter, decide_eq_true_eq]
  constructor
  · intro h
    obtain ⟨e, ⟨he, hi⟩, rfl⟩ := h
    exact ⟨hi, e, he, rfl⟩
  · intro h
    obtain ⟨hi, e, he, rfl⟩ := h
    exact ⟨e, ⟨he, hi⟩, rfl⟩

/-- A new entry names one inode more. -/
theorem named_put_new (hk : k ≤ es.length) (hvac : ∀ e', es[k]? = some e' → e'.inum = 0)
    (hi : e.inum ≠ 0) : named (put es k e) = e.inum ::ₘ named es := by
  have hes : named es = named (es.take k) + named (es.drop (k + 1)) := by
    by_cases hlt : k < es.length
    · have hz := hvac es[k] (List.getElem?_eq_getElem hlt)
      conv_lhs => rw [← List.take_append_drop k es, List.drop_eq_getElem_cons hlt]
      rw [named_append, named_cons, if_pos hz]
    · rw [List.take_of_length_le (by omega), List.drop_eq_nil_of_le (by omega)]
      exact (add_zero _).symm
  rw [put, named_append, named_cons, if_neg hi, Multiset.add_cons, hes]

/-- An emptied entry names no inode. -/
theorem named_put_zero (he : es[k]? = some e) (hi : e.inum ≠ 0) :
    named es = e.inum ::ₘ named (put es k ⟨0, []⟩) := by
  obtain ⟨hlt, rfl⟩ := List.getElem?_eq_some_iff.mp he
  conv_lhs => rw [← List.take_append_drop k es, List.drop_eq_getElem_cons hlt]
  rw [put, named_append, named_append, named_cons, if_neg hi, named_cons, if_pos rfl,
    Multiset.add_cons]

end

end Xv6.Fs

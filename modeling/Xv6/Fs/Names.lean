import Xv6.Mkfs.Main

/-!
# Names and paths

The string functions of `string.c` on the names of directory entries, and the cutting of a
path into its elements. A name is in a buffer of `DIRSIZ` bytes and ends at its first zero
byte, if it has one; whatever follows that byte does not count.
-/

namespace Xv6.Fs

open Function

open Mkfs (DIRSIZ T_DIR T_FILE ROOTINO)

/-- A character of a C string. -/
abbrev CChar := {c : UInt8 // c ≠ 0}

/-- A C string, up to its zero byte. -/
abbrev CString := List CChar

/-- `'/'`. -/
def slash : CChar := ⟨UInt8.ofNat '/'.toNat, by decide⟩

/-- `'.'`. -/
def period : CChar := ⟨UInt8.ofNat '.'.toNat, by decide⟩

/-- The bytes at a pointer to a C string. -/
def chars (s : CString) (j : Nat) : UInt8 :=
  match s[j]? with
  | some c => c
  | none => 0

/-- The string that the first `n` bytes at `p` hold. -/
def stringAt (p : Nat → UInt8) : Nat → CString
  | 0 => []
  | n + 1 => if h : p 0 ≠ 0 then ⟨p 0, h⟩ :: stringAt (fun j ↦ p (j + 1)) n else []

theorem chars_append {s t : CString} {j : Nat} (h : j < s.length) :
    chars (s ++ t) j = chars s j := by
  rw [chars, chars, List.getElem?_append_left h]

theorem chars_length (s : CString) : chars s s.length = 0 := by
  rw [chars, List.getElem?_eq_none (Nat.le_refl _)]

/-! ### `string.c` -/

/-- `strncmp`; `string.c:58-66`. -/
def strncmp (p q : Nat → UInt8) : Nat → Int
  | 0 => 0
  | n + 1 =>
    if p 0 ≠ 0 ∧ p 0 = q 0 then strncmp (fun j ↦ p (j + 1)) (fun j ↦ q (j + 1)) n
    else (p 0).toNat - (q 0).toNat

/-- The bytes that `strncpy` stores: those at `t` up to a zero byte, and zeros;
`string.c:68-79`. -/
def strncpy (t : Nat → UInt8) : Nat → List UInt8
  | 0 => []
  | n + 1 =>
    if t 0 ≠ 0 then t 0 :: strncpy (fun j ↦ t (j + 1)) n else List.replicate (n + 1) 0

/-- `memmove` of `n` bytes between two buffers; `string.c:31-49`. -/
def memmove (dst src : Nat → UInt8) (n : Nat) : Nat → UInt8 :=
  fun j ↦ if j < n then src j else dst j

/-! ### `fs.c` -/

/-- `namecmp`; `fs.c:633-637`. -/
def namecmp (s t : Nat → UInt8) : Int := strncmp s t DIRSIZ

/-- Copy the next path element into `name` and return the rest of the path, without leading
slashes, or none if there is no element; `fs.c:712-735`. -/
def skipelem (path : CString) (name : Nat → UInt8) : Option (CString × (Nat → UInt8)) :=
  let path := path.dropWhile (· = slash)
  if path = [] then
    none
  else
    let s := chars path
    let len := (path.takeWhile (· ≠ slash)).length
    let path := path.dropWhile (· ≠ slash)
    let name := if len ≥ DIRSIZ then memmove name s DIRSIZ else update (memmove name s len) len 0
    some (path.dropWhile (· = slash), name)

/-! ### What the names are -/

/-- The elements of a path: what is between its slashes, cut to `DIRSIZ` characters. -/
def elements (path : CString) : List CString :=
  ((path.splitOn slash).filter (· ≠ [])).map (List.take DIRSIZ)

/-- Two names compare equal exactly when their strings are the same. -/
theorem strncmp_eq_zero {p q : Nat → UInt8} {n : Nat} :
    strncmp p q n = 0 ↔ stringAt p n = stringAt q n := by
  induction n generalizing p q with
  | zero => exact iff_of_true rfl rfl
  | succ n ih =>
    unfold strncmp stringAt
    by_cases hp : p 0 ≠ 0
    · rw [dif_pos hp]
      by_cases hpq : p 0 = q 0
      · rw [if_pos ⟨hp, hpq⟩, ih, dif_pos (by rwa [← hpq]), List.cons.injEq, Subtype.mk.injEq]
        exact (and_iff_right hpq).symm
      · have hne : ((p 0).toNat : Int) - (q 0).toNat ≠ 0 := by
          have hnat := mt UInt8.toNat_inj.mp hpq
          omega
        rw [if_neg fun h ↦ hpq h.2]
        apply iff_of_false hne
        split
        · intro h
          exact hpq (congrArg Subtype.val (List.cons.inj h).1)
        · exact List.cons_ne_nil _ _
    · rw [if_neg fun h ↦ hp h.1, dif_neg hp]
      have hp0 : p 0 = 0 := not_not.mp hp
      by_cases hq : q 0 ≠ 0
      · have hne : ((p 0).toNat : Int) - (q 0).toNat ≠ 0 := by
          have hnat := mt UInt8.toNat_inj.mp (show q 0 ≠ 0 from hq)
          have hzero : (p 0).toNat = (0 : UInt8).toNat := by rw [hp0]
          have h0 : (0 : UInt8).toNat = 0 := rfl
          omega
        rw [dif_pos hq]
        exact iff_of_false hne (List.cons_ne_nil _ _).symm
      · rw [dif_neg hq, hp0, not_not.mp hq]
        exact iff_of_true rfl rfl

theorem namecmp_eq_zero {p q : Nat → UInt8} :
    namecmp p q = 0 ↔ stringAt p DIRSIZ = stringAt q DIRSIZ :=
  strncmp_eq_zero

theorem length_strncpy (t : Nat → UInt8) (n : Nat) : (strncpy t n).length = n := by
  induction n generalizing t with
  | zero => rfl
  | succ n ih =>
    unfold strncpy
    split
    · rw [List.length_cons, ih]
    · exact List.length_replicate

/-- Copying a name keeps its string. -/
theorem stringAt_strncpy (t : Nat → UInt8) (n : Nat) :
    stringAt (fun j ↦ (strncpy t n).getD j 0) n = stringAt t n := by
  induction n generalizing t with
  | zero => rfl
  | succ n ih =>
    unfold strncpy
    by_cases ht : t 0 ≠ 0
    · have htail := ih fun j ↦ t (j + 1)
      simp only [if_pos ht, stringAt, List.getD_cons_zero, List.getD_cons_succ, dif_pos ht, htail]
    · simp [stringAt, ht]

/-- A buffer with the characters of `s`, and a zero byte where they end before it does. -/
theorem stringAt_eq_take {p : Nat → UInt8} {s : CString} {n : Nat}
    (hchars : ∀ j, j < n → j ≤ s.length → p j = chars s j) : stringAt p n = s.take n := by
  induction n generalizing p s with
  | zero => rfl
  | succ n ih =>
    cases s with
    | nil =>
      have h0 : p 0 = 0 := hchars 0 (Nat.succ_pos n) (Nat.zero_le _)
      rw [stringAt, dif_neg (not_not.mpr h0), List.take_nil]
    | cons c s =>
      have h0 : p 0 = c := hchars 0 (Nat.succ_pos n) (Nat.zero_le _)
      have hc : p 0 ≠ 0 := by
        rw [h0]
        exact c.2
      have htail : stringAt (fun j ↦ p (j + 1)) n = s.take n := by
        apply ih
        intro j hj hjs
        exact hchars (j + 1) (Nat.succ_lt_succ hj) (Nat.succ_le_succ hjs)
      rw [stringAt, dif_pos hc, htail, List.take_succ_cons]
      congr 1
      exact Subtype.ext h0

/-- The name in a string that is short enough. -/
theorem stringAt_chars {s : CString} {n : Nat} (h : s.length ≤ n) : stringAt (chars s) n = s := by
  rw [stringAt_eq_take fun _ _ _ ↦ rfl, List.take_of_length_le h]

/-! ### The elements of a path -/

theorem elements_nil : elements [] = [] := by
  simp [elements, List.splitOn_nil]

/-- Leading slashes do not count. -/
theorem elements_slash (path : CString) : elements (slash :: path) = elements path := by
  have hsplit : (([] : CString) ++ slash :: path).splitOn slash = [] :: path.splitOn slash :=
    List.splitOn_append_cons_self_of_not_mem List.not_mem_nil path
  rw [List.nil_append] at hsplit
  simp [elements, hsplit]

theorem elements_dropWhile (path : CString) :
    elements (path.dropWhile (· = slash)) = elements path := by
  induction path with
  | nil => rfl
  | cons c path ih =>
    by_cases hc : c = slash
    · rw [List.dropWhile_cons, if_pos (decide_eq_true hc), ih, hc, elements_slash]
    · rw [List.dropWhile_cons, if_neg (by simpa using hc)]

/-- The first element of a path that does not start with a slash. -/
theorem elements_cons {path : CString} (hne : path ≠ []) (hhead : path.head hne ≠ slash) :
    elements path = (path.takeWhile (· ≠ slash)).take DIRSIZ ::
      elements (path.dropWhile (· ≠ slash)) := by
  have hfirst : path.takeWhile (· ≠ slash) ≠ [] := by
    obtain ⟨c, rest, rfl⟩ := List.exists_cons_of_ne_nil hne
    rw [List.takeWhile_cons_of_pos (by simpa using hhead)]
    exact List.cons_ne_nil _ _
  have hmem : slash ∉ path.takeWhile (· ≠ slash) := by
    intro hc
    simpa using List.mem_takeWhile_imp hc
  have hpath := List.takeWhile_append_dropWhile (p := (· ≠ slash)) (l := path)
  cases hrest : path.dropWhile (· ≠ slash) with
  | nil =>
    rw [hrest, List.append_nil] at hpath
    rw [hpath] at hfirst hmem ⊢
    simp [elements, List.splitOn_eq_singleton hmem, hne, List.splitOn_nil]
  | cons c rest =>
    have hc : c = slash := by
      have hstop := List.head?_dropWhile_not (fun c : CChar ↦ decide (c ≠ slash)) path
      rw [hrest] at hstop
      simpa using hstop
    subst hc
    rw [elements_slash]
    conv_lhs => rw [← hpath, hrest]
    rw [elements, List.splitOn_append_cons_self_of_not_mem hmem,
      List.filter_cons_of_pos (by simpa using hfirst), List.map_cons]
    rfl

private theorem head_dropWhile_ne {path : CString} (hne : path.dropWhile (· = slash) ≠ []) :
    (path.dropWhile (· = slash)).head hne ≠ slash := by
  simpa using List.head_dropWhile_not (p := fun c : CChar ↦ decide (c = slash)) (l := path) hne

/-- A path without leading slashes has an element unless it is empty. -/
theorem elements_eq_nil {path : CString} :
    elements path = [] ↔ path.dropWhile (· = slash) = [] := by
  rw [← elements_dropWhile]
  constructor
  · intro h
    by_contra hne
    rw [elements_cons hne] at h
    · exact List.cons_ne_nil _ _ h
    · exact head_dropWhile_ne hne
  · intro h
    rw [h, elements_nil]

/-- `skipelem` finds no element in a path without elements. -/
theorem skipelem_eq_none {path : CString} {name : Nat → UInt8} :
    skipelem path name = none ↔ elements path = [] := by
  rw [elements_eq_nil]
  unfold skipelem
  dsimp only
  split
  · next h => exact iff_of_true rfl h
  · next h => exact iff_of_false (Option.some_ne_none _) h

/-- `skipelem` takes the first element off: its name is in the buffer, the rest of the path
has the other elements, and is empty when there are none. -/
theorem skipelem_eq_some {path rest : CString} {name name' : Nat → UInt8}
    (h : skipelem path name = some (rest, name')) :
    elements path = stringAt name' DIRSIZ :: elements rest ∧ (rest = [] ↔ elements rest = []) := by
  unfold skipelem at h
  dsimp only at h
  split at h
  · cases h
  · next hne =>
    obtain ⟨hrest, hname⟩ := Prod.mk.inj (Option.some.inj h)
    have hhead := head_dropWhile_ne hne
    rw [← elements_dropWhile path]
    generalize path.dropWhile (· = slash) = p at hne hhead hrest hname
    have hsplit := List.takeWhile_append_dropWhile (p := (· ≠ slash)) (l := p)
    have hchars : ∀ j, j < DIRSIZ → j ≤ (p.takeWhile (· ≠ slash)).length →
        name' j = chars (p.takeWhile (· ≠ slash)) j := by
      intro j hlt hj
      have hprefix : j < (p.takeWhile (· ≠ slash)).length →
          chars p j = chars (p.takeWhile (· ≠ slash)) j := by
        intro hj
        rw [← chars_append hj, hsplit]
      rw [← hname]
      split
      · rw [memmove, if_pos hlt, hprefix (by omega)]
      · by_cases he : j = (p.takeWhile (· ≠ slash)).length
        · rw [he, update_self, chars_length]
        · rw [update_of_ne he, memmove, if_pos (by omega), hprefix (by omega)]
    rw [elements_cons hne hhead, stringAt_eq_take hchars, ← hrest, elements_dropWhile]
    refine ⟨rfl, ?_⟩
    rw [elements_eq_nil]

/-- `skipelem` shortens the path. -/
theorem length_lt_of_skipelem {path rest : CString} {name name' : Nat → UInt8}
    (h : skipelem path name = some (rest, name')) : rest.length < path.length := by
  unfold skipelem at h
  dsimp only at h
  split at h
  · cases h
  · next hne =>
    obtain ⟨rfl, -⟩ := Prod.mk.inj (Option.some.inj h)
    have hhead := head_dropWhile_ne hne
    have hle : (path.dropWhile (· = slash)).length ≤ path.length :=
      (List.dropWhile_sublist _).length_le
    generalize path.dropWhile (· = slash) = p at hne hhead hle ⊢
    obtain ⟨c, p, rfl⟩ := List.exists_cons_of_ne_nil hne
    have hfirst : (c :: p).dropWhile (· ≠ slash) = p.dropWhile (· ≠ slash) := by
      rw [List.dropWhile_cons, if_pos (by simpa using hhead)]
    have h1 : ((p.dropWhile (· ≠ slash)).dropWhile (· = slash)).length ≤ p.length :=
      ((List.dropWhile_sublist _).trans (List.dropWhile_sublist _)).length_le
    rw [hfirst]
    rw [List.length_cons] at hle
    omega

end Xv6.Fs

import Mathlib.Data.List.Basic
import Mathlib.Data.List.Range

/-!
# Regions of memory

A region is the contents of memory from some base address on, one cell an
offset.  Reading and writing are total: whether an access stays inside the
storage that a program owns is a separate question, asked with `InBounds`.
-/

/-- Cell contents by offset from a base address. -/
def Region (α : Type*) := ℕ → α

namespace Region

variable {α : Type*}

/-- The `len` cells from offset `off` on. -/
def read (m : Region α) (off len : ℕ) : List α :=
  (List.range len).map fun i => m (off + i)

/-- Store `data` from offset `off` on. -/
def write (m : Region α) (off : ℕ) (data : List α) : Region α :=
  fun i => if off ≤ i then data.getD (i - off) (m i) else m i

/-- The region that starts `off` cells further on. -/
def shift (m : Region α) (off : ℕ) : Region α := fun i => m (off + i)

/-- Put a region in from `off` on. -/
def graft (m : Region α) (off : ℕ) (r : Region α) : Region α :=
  fun i => if off ≤ i then r (i - off) else m i

/-- A region that starts with the given cells. -/
def ofList (fill : α) (cells : List α) : Region α := fun i => cells.getD i fill

/-- An access of `len` cells at `off` stays below `size`. -/
def InBounds (size off len : ℕ) : Prop := off + len ≤ size

instance (size off len : ℕ) : Decidable (InBounds size off len) :=
  inferInstanceAs (Decidable (off + len ≤ size))

@[simp] theorem read_length (m : Region α) (off len : ℕ) :
    (m.read off len).length = len := by
  simp [read]

@[simp] theorem read_zero (m : Region α) (off : ℕ) : m.read off 0 = [] := rfl

theorem read_getElem {m : Region α} {off len i : ℕ}
    (hi : i < (m.read off len).length) : (m.read off len)[i] = m (off + i) := by
  simp [read]

theorem read_append (m : Region α) (off len extra : ℕ) :
    m.read off (len + extra) =
      m.read off len ++ m.read (off + len) extra := by
  simp only [read, List.range_add, List.map_append, List.map_map,
    Function.comp_def, Nat.add_assoc]

theorem read_take (m : Region α) (off len k : ℕ) :
    (m.read off len).take k = m.read off (min k len) := by
  simp [read, ← List.map_take, List.take_range]

theorem read_drop (m : Region α) {off len k : ℕ} (hk : k ≤ len) :
    (m.read off len).drop k = m.read (off + k) (len - k) := by
  obtain ⟨rest, rfl⟩ := Nat.exists_eq_add_of_le hk
  rw [read_append, List.drop_append_of_le_length (by simp)]
  simp [List.drop_of_length_le]

theorem read_congr {m m' : Region α} {off len : ℕ}
    (h : ∀ i, off ≤ i → i < off + len → m i = m' i) :
    m.read off len = m'.read off len := by
  apply List.map_congr_left
  intro i hi
  rw [List.mem_range] at hi
  exact h (off + i) (by omega) (by omega)

@[simp] theorem shift_read (m : Region α) (base off len : ℕ) :
    (m.shift base).read off len = m.read (base + off) len := by
  simp [read, shift, Nat.add_assoc]

/-! ## Reading back what was written -/

theorem write_apply_of_lt {m : Region α} {off i : ℕ} {data : List α}
    (hi : i < off) : m.write off data i = m i := by
  simp [write, Nat.not_le.mpr hi]

/-- Writing the same cells into two regions leaves what was different outside
them. -/
theorem write_congr {m m' : Region α} {off i : ℕ} {data : List α}
    (h : i < off ∨ off + data.length ≤ i → m i = m' i) :
    m.write off data i = m'.write off data i := by
  simp only [write]
  split
  · next hle =>
    by_cases hin : i - off < data.length
    · simp [List.getD_eq_getElem?_getD, List.getElem?_eq_getElem hin]
    · simp [List.getD_eq_getElem?_getD, List.getElem?_eq_none (not_lt.mp hin),
        h (Or.inr (by omega))]
  · next hlt => exact h (Or.inl (not_le.mp hlt))

theorem write_apply_of_le {m : Region α} {off i : ℕ} {data : List α}
    (hi : off + data.length ≤ i) : m.write off data i = m i := by
  have hout : ¬i - off < data.length := by omega
  simp [write, List.getD_eq_getElem?_getD,
    List.getElem?_eq_none (not_lt.mp hout)]

@[simp] theorem read_write_self (m : Region α) (off : ℕ) (data : List α) :
    (m.write off data).read off data.length = data := by
  apply List.ext_getElem (by simp)
  intro i _ hi
  rw [read_getElem]
  simp [write, hi]

theorem read_write_before (m : Region α) {off pos len : ℕ} {data : List α}
    (h : pos + len ≤ off) :
    (m.write off data).read pos len = m.read pos len :=
  read_congr fun _ _ hi => write_apply_of_lt (by omega)

/-- Writing just past a prefix leaves the prefix and appends the data to it. -/
theorem read_write_extend (m : Region α) (off : ℕ) (data : List α) :
    (m.write off data).read 0 (off + data.length) = m.read 0 off ++ data := by
  rw [read_append, Nat.zero_add, read_write_self,
    read_write_before m (by omega)]

theorem graft_apply_of_lt {m r : Region α} {off i : ℕ} (hi : i < off) :
    m.graft off r i = m i := if_neg (Nat.not_le.mpr hi)

theorem graft_apply_add {m r : Region α} {off i : ℕ} :
    m.graft off r (off + i) = r i := by
  rw [graft, if_pos (Nat.le_add_right off i), Nat.add_sub_cancel_left]

/-- Where the region put in is what lay there, nothing changes. -/
theorem graft_apply_of_eq {m r : Region α} {off i : ℕ}
    (h : off ≤ i → r (i - off) = m.shift off (i - off)) :
    m.graft off r i = m i := by
  unfold graft
  split
  · next hle =>
    rw [h hle, shift, Nat.add_sub_of_le hle]
  · rfl

/-! ## Ranges that do not overlap -/

/-- The ranges of `len` cells at `off` and of `len'` cells at `off'` do not
overlap. -/
def Apart (off len off' len' : ℕ) : Prop := off + len ≤ off' ∨ off' + len' ≤ off

instance (off len off' len' : ℕ) : Decidable (Apart off len off' len') :=
  inferInstanceAs (Decidable (_ ∨ _))

theorem Apart.symm {off len off' len' : ℕ} (h : Apart off len off' len') :
    Apart off' len' off len := Or.symm h

/-- Ranges inside ranges that do not overlap do not overlap either. -/
theorem Apart.mono {off len off' len' pos n pos' n' : ℕ}
    (h : Apart off len off' len') (hin : off ≤ pos ∧ pos + n ≤ off + len)
    (hin' : off' ≤ pos' ∧ pos' + n' ≤ off' + len') : Apart pos n pos' n' := by
  unfold Apart at h ⊢
  omega

/-- Of the cells of a grid with numbers `i` and `j`, `n` and `m` long, the one
with the lower number ends before the other starts. -/
def FarApart (stride i n j m : ℕ) : Prop :=
  (i < j ∧ n ≤ (j - i) * stride) ∨ (j < i ∧ m ≤ (i - j) * stride)

instance (stride i n j m : ℕ) : Decidable (FarApart stride i n j m) :=
  inferInstanceAs (Decidable (_ ∨ _))

/-- Whether cells of a grid overlap depends on their numbers alone. -/
theorem farApart_iff {base stride i n j m : ℕ} (hn : 0 < n) (hm : 0 < m) :
    FarApart stride i n j m ↔
      Apart (base + i * stride) n (base + j * stride) m := by
  unfold FarApart Apart
  rcases Nat.lt_trichotomy i j with hlt | rfl | hgt
  · have hle : i * stride ≤ j * stride := Nat.mul_le_mul_right _ hlt.le
    rw [Nat.sub_mul, Nat.sub_mul]
    omega
  · omega
  · have hle : j * stride ≤ i * stride := Nat.mul_le_mul_right _ hgt.le
    rw [Nat.sub_mul, Nat.sub_mul]
    omega

/-- A write leaves every range alone that it does not overlap. -/
theorem read_write_apart {m : Region α} {off pos len : ℕ} {data : List α}
    (h : Apart off data.length pos len) :
    (m.write off data).read pos len = m.read pos len := by
  apply read_congr
  intro i hlow hhigh
  rcases h with hbelow | habove
  · exact write_apply_of_le (by omega)
  · exact write_apply_of_lt (by omega)

@[simp] theorem read_ofList (fill : α) (cells : List α) :
    (ofList fill cells).read 0 cells.length = cells := by
  apply List.ext_getElem (by simp)
  intro i _ hi
  rw [read_getElem]
  simp [ofList, hi]

end Region

import DokeviNetwork.Support.Maps
import Mathlib.Algebra.Order.Ring.Int
import Mathlib.Data.List.Induction
import Mathlib.Data.List.TakeWhile
import Mathlib.Tactic.Common

/-!
# The cache of the configuration

`GetStr` and `GetInt` look a section and an attribute up in a map of maps, and
ask the system for the value where the section or the attribute is missing.
Both read and fill the same cache.  The file may change at any time, and so
may its name; a pair that has been asked for once keeps the value it had then.

`GetPrivateProfileStringA` is a function of what is on the disk and of the
arguments it gets.
-/

namespace DokeviNet

open EntryMap

/-- `MAX_PATH`. -/
def maxPath : ℕ := 260

/-- The `isspace` of the C locale. -/
def isSpace (c : Char) : Bool :=
  c.toNat = 32 || (9 ≤ c.toNat && c.toNat ≤ 13)

/-- The number that the digits at the front of a text spell. -/
def leadingDigits (text : List Char) : ℕ :=
  (text.takeWhile Char.isDigit).foldl
    (fun n c => 10 * n + (c.toNat - '0'.toNat)) 0

/-- The number with its sign, if there is one. -/
def signedDigits : List Char → ℤ
  | '-' :: rest => -leadingDigits rest
  | '+' :: rest => leadingDigits rest
  | rest => leadingDigits rest

/-- `std::atoi`; a number that no `int` has becomes the nearest one. -/
def atoi (text : String) : ℤ :=
  max (-2 ^ 31)
    (min (2 ^ 31 - 1) (signedDigits (text.toList.dropWhile isSpace)))

/-- The result of `atoi` is an `int`. -/
theorem atoi_bounds (text : String) :
    -2 ^ 31 ≤ atoi text ∧ atoi text < 2 ^ 31 := by
  unfold atoi
  omega

example : atoi "\t -12 seconds" = -12 := by decide +kernel

/-- The fields of `ConfigManager`. -/
structure ConfigManager where
  fileAddr : String
  cache : AList fun _ : String => AList fun _ : String => String

/-- The manager, what is on the disk, and the pairs for which the file has been
read, in that order. -/
structure Configuration (φ : Type*) where
  manager : ConfigManager
  disk : φ
  reads : List (String × String)

/-- The calls on the manager, and a change of what is on the disk. -/
inductive ConfigOp (φ : Type*)
  | initializeFile (inIniFileName : String)
  | edit (disk : φ)
  | getStr (inType inAttribute : String)
  | getInt (inType inAttribute : String)

/-- The operation is a call for this pair. -/
def ConfigOp.asks {φ : Type*} (pair : String × String) : ConfigOp φ → Bool
  | initializeFile _ => false
  | edit _ => false
  | getStr inType inAttribute => (inType, inAttribute) = pair
  | getInt inType inAttribute => (inType, inAttribute) = pair

namespace Configuration

variable {φ : Type*} {β : Type}
  (getPrivateProfileStringA :
    φ → String → String → String → ℕ → String → String)

/-- No call has been made; `_fileAddr` is empty. -/
def new (disk : φ) : Configuration φ where
  manager := { fileAddr := "", cache := ∅ }
  disk := disk
  reads := []

/-- What the file gives for a pair. -/
def value (c : Configuration φ) (inType inAttribute : String) : String :=
  getPrivateProfileStringA c.disk inType inAttribute "" maxPath
    c.manager.fileAddr

/-- The body of `GetStr` and of `GetInt`, which differ in what they make of the
value: what is returned, and the configuration afterwards. -/
def get (convert : String → β) (c : Configuration φ)
    (inType inAttribute : String) : β × Configuration φ :=
  let value := c.value getPrivateProfileStringA inType inAttribute
  let reads := c.reads ++ [(inType, inAttribute)]
  match c.manager.cache.lookup inType with
  | none =>
    let newMap := insertNew ∅ inAttribute value
    let cache := insertNew c.manager.cache inType newMap
    (convert value, { c with manager.cache := cache, reads := reads })
  | some attributes =>
    match attributes.lookup inAttribute with
    | none =>
      let attributes := subscript c.manager.cache inType ∅
      let cache := c.manager.cache.insert inType
        (insertNew attributes inAttribute value)
      (convert value, { c with manager.cache := cache, reads := reads })
    | some _ =>
      -- both subscripts find their entry
      let attributes := subscript c.manager.cache inType ∅
      (convert (subscript attributes inAttribute ""), c)

/-- `GetStr`. -/
def getStr (c : Configuration φ) (inType inAttribute : String) :
    String × Configuration φ :=
  c.get getPrivateProfileStringA id inType inAttribute

/-- `GetInt`. -/
def getInt (c : Configuration φ) (inType inAttribute : String) :
    ℤ × Configuration φ :=
  c.get getPrivateProfileStringA atoi inType inAttribute

def step (c : Configuration φ) : ConfigOp φ → Configuration φ
  | .initializeFile inIniFileName =>
    { c with manager.fileAddr := inIniFileName }
  | .edit disk => { c with disk := disk }
  | .getStr inType inAttribute =>
    (c.getStr getPrivateProfileStringA inType inAttribute).2
  | .getInt inType inAttribute =>
    (c.getInt getPrivateProfileStringA inType inAttribute).2

/-- The operations of a history, one after the other. -/
def after (c : Configuration φ) (ops : List (ConfigOp φ)) : Configuration φ :=
  ops.foldl (step getPrivateProfileStringA) c

/-- The entry of the cache for a pair. -/
def cached (c : Configuration φ) (pair : String × String) : Option String :=
  (c.manager.cache.lookup pair.1).bind fun attributes =>
    attributes.lookup pair.2

section

variable {c : Configuration φ} {convert : String → β}
  {inType inAttribute : String}

/-- A call for a pair that is in the cache returns what is there and changes
nothing. -/
theorem get_of_cached {v : String}
    (h : c.cached (inType, inAttribute) = some v) :
    c.get getPrivateProfileStringA convert inType inAttribute =
      (convert v, c) := by
  obtain ⟨attributes, htype, hattr⟩ := Option.bind_eq_some_iff.mp h
  simp only [get, htype, hattr, subscript_of_lookup htype,
    subscript_of_lookup hattr]

/-- The cache after the attributes of a section have been replaced by ones that
have one more. -/
theorem cached_eq_update {cache : AList fun _ : String => AList _}
    {attributes : AList fun _ : String => String} {v : String}
    (hsection : cache.lookup inType =
      some (insertNew attributes inAttribute v))
    (hattr : attributes.lookup inAttribute = none)
    (hothers : ∀ a ≠ inAttribute,
      attributes.lookup a = c.cached (inType, a))
    (hrest : ∀ s ≠ inType, cache.lookup s = c.manager.cache.lookup s)
    (reads : List (String × String)) :
    cached { c with manager.cache := cache, reads := reads } =
      Function.update c.cached (inType, inAttribute) (some v) := by
  funext ⟨s, a⟩
  change (cache.lookup s).bind (fun attributes => attributes.lookup a) = _
  by_cases hs : s = inType
  · subst hs
    rw [hsection, Option.bind_some]
    by_cases ha : a = inAttribute
    · subst ha
      rw [Function.update_self, lookup_insertNew,
        subscript_of_lookup_none hattr]
    · have hne : (s, a) ≠ (s, inAttribute) := by simpa using ha
      rw [Function.update_of_ne hne, lookup_insertNew_ne ha]
      exact hothers a ha
  · have hne : (s, a) ≠ (inType, inAttribute) := by simp [hs]
    rw [Function.update_of_ne hne, hrest s hs]
    rfl

/-- What a call does for a pair that is not in the cache. -/
structure Adds (c c' : Configuration φ) (pair : String × String) (v : String) :
    Prop where
  reads : c'.reads = c.reads ++ [pair]
  cached : c'.cached = Function.update c.cached pair (some v)

/-- A call for a pair that is not in the cache reads the file once and adds the
pair to the cache with the value that it returns. -/
theorem get_of_not_cached (convert : String → β)
    (h : c.cached (inType, inAttribute) = none) :
    let value := c.value getPrivateProfileStringA inType inAttribute
    ∃ c', c.get getPrivateProfileStringA convert inType inAttribute =
        (convert value, c') ∧ c.Adds c' (inType, inAttribute) value := by
  intro value
  cases htype : c.manager.cache.lookup inType with
  | none =>
      -- the section is missing
      have hempty : ∀ a, c.cached (inType, a) = none := by
        intro a
        rw [cached, htype, Option.bind_none]
      let newMap := insertNew ∅ inAttribute value
      refine ⟨{ c with
        manager.cache := insertNew c.manager.cache inType newMap
        reads := c.reads ++ [(inType, inAttribute)] }, ?_, rfl, ?_⟩
      · simp only [get, htype]
        rfl
      · apply cached_eq_update
        · rw [lookup_insertNew, subscript_of_lookup_none htype]
        · exact AList.lookup_empty _
        · intro a _
          rw [hempty a, AList.lookup_empty]
        · intro s hs
          exact lookup_insertNew_ne hs _
  | some attributes =>
      have hattributes : ∀ a, attributes.lookup a = c.cached (inType, a) := by
        intro a
        rw [cached, htype, Option.bind_some]
      have hattr := (hattributes inAttribute).trans h
      refine ⟨{ c with
        manager.cache := c.manager.cache.insert inType
          (insertNew attributes inAttribute value)
        reads := c.reads ++ [(inType, inAttribute)] }, ?_, rfl, ?_⟩
      · simp only [get, htype, hattr, subscript_of_lookup htype]
        rfl
      · apply cached_eq_update
        · exact AList.lookup_insert _
        · exact hattr
        · intro a _
          exact hattributes a
        · intro s hs
          exact AList.lookup_insert_ne hs

end

/-! ## Histories -/

section

variable {disk : φ} {ops : List (ConfigOp φ)} {op : ConfigOp φ}
  {pair : String × String}

/-- What the file gave for a pair at the first call for it in the history, or
gives now if there has been none. -/
def firstRead (disk : φ) (ops : List (ConfigOp φ)) (pair : String × String) :
    String :=
  ((new disk).after getPrivateProfileStringA
    (ops.takeWhile fun op => !op.asks pair)).value
      getPrivateProfileStringA pair.1 pair.2

theorem after_concat (c : Configuration φ) (ops : List (ConfigOp φ))
    (op : ConfigOp φ) :
    c.after getPrivateProfileStringA (ops ++ [op]) =
      (c.after getPrivateProfileStringA ops).step
        getPrivateProfileStringA op :=
  List.foldl_concat _ _ _ _

theorem firstRead_of_not_asked (h : ops.any (ConfigOp.asks pair) = false) :
    firstRead getPrivateProfileStringA disk ops pair =
      ((new disk).after getPrivateProfileStringA ops).value
        getPrivateProfileStringA pair.1 pair.2 := by
  have hall : ops.takeWhile (fun op => !op.asks pair) = ops := by
    rw [List.takeWhile_eq_self_iff]
    simpa using h
  rw [firstRead, hall]

/-- The first call for a pair gets what the file gives then. -/
theorem firstRead_concat (h : ops.any (ConfigOp.asks pair) = false)
    (hasks : op.asks pair = true) :
    firstRead getPrivateProfileStringA disk (ops ++ [op]) pair =
      firstRead getPrivateProfileStringA disk ops pair := by
  have hall : ∀ op ∈ ops, (!op.asks pair) = true := by simpa using h
  have hops : ops.takeWhile (fun op => !op.asks pair) = ops :=
    List.takeWhile_eq_self_iff.mpr hall
  have hconcat : (ops ++ [op]).takeWhile (fun op => !op.asks pair) = ops := by
    rw [List.takeWhile_append_of_pos hall]
    simp [hasks]
  rw [firstRead, firstRead, hconcat, hops]

/-- What comes after the first call does not matter. -/
theorem firstRead_append (h : ops.any (ConfigOp.asks pair) = true)
    (more : List (ConfigOp φ)) :
    firstRead getPrivateProfileStringA disk (ops ++ more) pair =
      firstRead getPrivateProfileStringA disk ops pair := by
  have hne : ops.takeWhile (fun op => !op.asks pair) ≠ ops := by
    intro heq
    rw [List.takeWhile_eq_self_iff] at heq
    obtain ⟨op, hop, hasks⟩ := List.any_eq_true.mp h
    simpa [hasks] using heq op hop
  have hlength : (ops.takeWhile fun op => !op.asks pair).length ≠
      ops.length := by
    intro heq
    exact hne ((List.takeWhile_prefix _).eq_of_length heq)
  rw [firstRead, firstRead, List.takeWhile_append, if_neg hlength]

/-- What the cache has for a pair after a history, and how often the file has
been read for it. -/
structure Recorded (disk : φ) (ops : List (ConfigOp φ))
    (c : Configuration φ) (pair : String × String) : Prop where
  cached : c.cached pair =
    if ops.any (ConfigOp.asks pair) then
      some (firstRead getPrivateProfileStringA disk ops pair)
    else none
  reads : c.reads.count pair = if ops.any (ConfigOp.asks pair) then 1 else 0

/-- An operation that is no call for the pair leaves its record alone. -/
theorem Recorded.skip {c c' : Configuration φ}
    (h : Recorded getPrivateProfileStringA disk ops c pair)
    (hasks : op.asks pair = false) (hcached : c'.cached pair = c.cached pair)
    (hreads : c'.reads.count pair = c.reads.count pair) :
    Recorded getPrivateProfileStringA disk (ops ++ [op]) c' pair := by
  have hany : (ops ++ [op]).any (ConfigOp.asks pair) =
      ops.any (ConfigOp.asks pair) := by
    simp [hasks]
  refine ⟨?_, ?_⟩
  · rw [hany, hcached, h.cached]
    split
    · next hasked => rw [firstRead_append _ hasked]
    · rfl
  · rw [hany, hreads, h.reads]

/-- A call for the pair finds the value of the first call, or is the first. -/
theorem Recorded.get_fst {inType inAttribute : String} {convert : String → β}
    (h : Recorded getPrivateProfileStringA disk ops
      ((new disk).after getPrivateProfileStringA ops)
      (inType, inAttribute)) :
    (get getPrivateProfileStringA convert
      ((new disk).after getPrivateProfileStringA ops) inType
        inAttribute).1 =
      convert (firstRead getPrivateProfileStringA disk ops
        (inType, inAttribute)) := by
  have hcached := h.cached
  split at hcached
  · rw [get_of_cached _ hcached]
  · next hasked =>
    obtain ⟨c', hget, -⟩ := get_of_not_cached _ convert hcached
    rw [hget, firstRead_of_not_asked _ (Bool.eq_false_iff.mpr hasked)]

/-- The call records the pair for which it is made. -/
theorem Recorded.get_snd {inType inAttribute : String} {convert : String → β}
    (h : Recorded getPrivateProfileStringA disk ops
      ((new disk).after getPrivateProfileStringA ops)
      (inType, inAttribute))
    (hasks : op.asks (inType, inAttribute) = true) :
    Recorded getPrivateProfileStringA disk (ops ++ [op])
      (get getPrivateProfileStringA convert
        ((new disk).after getPrivateProfileStringA ops) inType
          inAttribute).2 (inType, inAttribute) := by
  have hany : (ops ++ [op]).any (ConfigOp.asks (inType, inAttribute)) =
      true := by
    simp [hasks]
  have hcached := h.cached
  have hreads := h.reads
  by_cases hasked : ops.any (ConfigOp.asks (inType, inAttribute)) = true
  · rw [if_pos hasked] at hcached hreads
    rw [get_of_cached _ hcached]
    refine ⟨?_, ?_⟩
    · rw [hcached, if_pos hany, firstRead_append _ hasked]
    · rw [hreads, if_pos hany]
  · rw [if_neg hasked] at hcached hreads
    have hnot := Bool.eq_false_iff.mpr hasked
    obtain ⟨c', hget, hadds⟩ := get_of_not_cached _ convert hcached
    rw [hget]
    refine ⟨?_, ?_⟩
    · rw [hadds.cached, Function.update_self, if_pos hany,
        firstRead_concat _ hnot hasks, firstRead_of_not_asked _ hnot]
    · rw [hadds.reads, List.count_append, hreads, if_pos hany]
      simp

/-- The call leaves the records of the other pairs alone. -/
theorem Recorded.get_of_ne {inType inAttribute : String}
    {convert : String → β}
    (h : Recorded getPrivateProfileStringA disk ops
      ((new disk).after getPrivateProfileStringA ops) pair)
    (hasks : op.asks pair = false) (hne : pair ≠ (inType, inAttribute)) :
    Recorded getPrivateProfileStringA disk (ops ++ [op])
      (get getPrivateProfileStringA convert
        ((new disk).after getPrivateProfileStringA ops) inType
          inAttribute).2 pair := by
  generalize (new disk).after getPrivateProfileStringA ops = c at h ⊢
  cases hcached : c.cached (inType, inAttribute) with
  | some v =>
      rw [get_of_cached _ hcached]
      exact h.skip _ hasks rfl rfl
  | none =>
      obtain ⟨c', hget, hadds⟩ := get_of_not_cached _ convert hcached
      rw [hget]
      apply h.skip _ hasks
      · rw [hadds.cached, Function.update_of_ne hne]
      · rw [hadds.reads, List.count_append,
          List.count_singleton, if_neg (by simpa using hne.symm), Nat.add_zero]

/-- A call keeps the records of all pairs. -/
theorem Recorded.get {inType inAttribute : String} (convert : String → β)
    (h : ∀ pair, Recorded getPrivateProfileStringA disk ops
      ((new disk).after getPrivateProfileStringA ops) pair)
    (hasks : ∀ pair, op.asks pair = decide ((inType, inAttribute) = pair))
    (pair : String × String) :
    Recorded getPrivateProfileStringA disk (ops ++ [op])
      (Configuration.get getPrivateProfileStringA convert
        ((new disk).after getPrivateProfileStringA ops) inType
          inAttribute).2 pair := by
  by_cases hpair : (inType, inAttribute) = pair
  · subst hpair
    apply (h _).get_snd
    rw [hasks]
    exact decide_eq_true rfl
  · apply (h pair).get_of_ne
    · rw [hasks]
      exact decide_eq_false hpair
    · exact Ne.symm hpair

/-- Each operation keeps the records. -/
theorem Recorded.step
    (h : ∀ pair, Recorded getPrivateProfileStringA disk ops
      ((new disk).after getPrivateProfileStringA ops) pair)
    (op : ConfigOp φ) (pair : String × String) :
    Recorded getPrivateProfileStringA disk (ops ++ [op])
      ((new disk).after getPrivateProfileStringA (ops ++ [op])) pair := by
  rw [after_concat]
  cases op with
  | initializeFile name => exact (h pair).skip _ rfl rfl rfl
  | edit disk' => exact (h pair).skip _ rfl rfl rfl
  | getStr inType inAttribute =>
      exact Recorded.get _ id h (fun _ => rfl) pair
  | getInt inType inAttribute =>
      exact Recorded.get _ atoi h (fun _ => rfl) pair

theorem recorded_after (disk : φ) (ops : List (ConfigOp φ))
    (pair : String × String) :
    Recorded getPrivateProfileStringA disk ops
      ((new disk).after getPrivateProfileStringA ops) pair := by
  induction ops using List.reverseRecOn generalizing pair with
  | nil => exact ⟨rfl, rfl⟩
  | append_singleton ops op ih => exact Recorded.step _ ih op pair

/-- After any history of calls and of changes to the file, `GetStr` returns what
the file gave at the first call for the pair, `GetInt` its `atoi`, and the file
has been read once for the pair if it has been asked for, else never. -/
theorem getStr_getInt_firstRead (disk : φ) (ops : List (ConfigOp φ))
    (inType inAttribute : String) :
    let c := (new disk).after getPrivateProfileStringA ops
    let first :=
      firstRead getPrivateProfileStringA disk ops (inType, inAttribute)
    (c.getStr getPrivateProfileStringA inType inAttribute).1 = first ∧
      (c.getInt getPrivateProfileStringA inType inAttribute).1 = atoi first ∧
      c.reads.count (inType, inAttribute) =
        if ops.any (ConfigOp.asks (inType, inAttribute)) then 1 else 0 := by
  have h := recorded_after getPrivateProfileStringA disk ops
    (inType, inAttribute)
  exact ⟨h.get_fst, h.get_fst, h.reads⟩

end

end Configuration

end DokeviNet

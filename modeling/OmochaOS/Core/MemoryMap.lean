import OmochaOS.Lib.ByteMemory
import OmochaOS.Lib.PointerWalk
import OmochaOS.Systask.Dispatcher

/-!
# The memory map of the boot loader (`core/memory.c`)

`core_init_memory` copies the entries of the map into `memory_zone`, which has room for sixteen of them.
An entry says itself how far the next one is behind it, and the loop goes on as long as one begins in
front of the end of the map.

* `Recorded.record`, `recorded_foldl` — one turn of the loop, and all of them;
* `walkBounded_iff` — when the walk ends inside the map and inside the array.
-/

namespace OmochaOS.MemoryMap

open ByteMemory PointerWalk

/-- `struct core_env_memory_zone`. -/
structure Zone where
  addr : ℕ
  length : ℕ
  type : ℕ
deriving DecidableEq, Inhabited

def memoryZoneMax : ℕ := 16

def memoryAvailable : ℕ := 1

/-- `KP2V`. -/
def kp2v (a : ℕ) : ℕ := (a + ProcTable.kernBase) % 2 ^ 32

/-- The zone of an entry. -/
def zoneAt (mem : Memory) (mmap : ℕ) : Zone where
  addr := readWord mem (mmap + 4)
  length := readWord mem (mmap + 12)
  type := readWord mem (mmap + 20)

/-- The place of the next entry, in 32 bits. -/
def nextEntry (mem : Memory) (mmap : ℕ) : ℕ := (mmap + readWord mem mmap + 4) % 2 ^ 32

/-- `(uint)KP2V(mmap_addr) + mmap_length`. -/
def mmapEnd (mmapAddr mmapLength : ℕ) : ℕ := (kp2v mmapAddr + mmapLength) % 2 ^ 32

/-- The memory at 1 MB. -/
def Zone.upper (z : Zone) : Bool := z.addr = 0x100000 ∧ z.type = memoryAvailable

/-- `memory_zone`, `i` and `upper_mem_length`, and the entries that have been read. -/
structure Recording where
  zone : ℕ → Zone
  i : ℕ
  upperMemLength : ℕ
  entries : List ℕ

/-- The body of the loop. -/
def record (mem : Memory) (r : Recording) (mmap : ℕ) : Recording where
  zone := Function.update r.zone r.i (zoneAt mem mmap)
  i := r.i + 1
  upperMemLength := if (zoneAt mem mmap).upper then (zoneAt mem mmap).length else r.upperMemLength
  entries := r.entries ++ [mmap]

/-- Where the loop stops. -/
def Behind (mapEnd mmap : ℕ) : Prop := mapEnd ≤ mmap

instance (mapEnd : ℕ) : DecidablePred (Behind mapEnd) := fun _ => inferInstanceAs (Decidable (_ ≤ _))

/-- The loop over the map. -/
def mmapWalk (mem : Memory) (mmapAddr mmapLength fuel : ℕ) : Option Recording :=
  walk (nextEntry mem) (Behind (mmapEnd mmapAddr mmapLength)) (record mem) fuel (kp2v mmapAddr)
    ⟨fun _ => default, 0, 0, []⟩

/-! ### What the walk should do -/

/-- The zones that `QUERY_ENV` copies for `ENV_KEY_MMAP`. -/
def answeredZones (env : Systask.CoreEnv) (zone : ℕ → Zone) : List Zone :=
  (List.range (Systask.mmapSize env / Systask.memoryZoneSize)).map zone

/-- Entries of the map are recorded once each, as many as there is room for, and they are the answer to
`QUERY_ENV`. -/
structure Bounded (mem : Memory) (mapEnd : ℕ) (r : Recording) : Prop where
  before : ∀ mmap ∈ r.entries, mmap < mapEnd
  once : r.entries.Nodup
  few : r.entries.length ≤ memoryZoneMax
  count : r.i = r.entries.length
  zones : ∀ k < r.i, r.zone k = ((r.entries.map (zoneAt mem))[k]?).getD default
  answered : ∀ env : Systask.CoreEnv, env.memoryZoneCount = r.i →
    answeredZones env r.zone = r.entries.map (zoneAt mem)

/-- The walk ends, and is bounded. -/
def WalkBounded (mem : Memory) (mmapAddr mmapLength : ℕ) : Prop :=
  ∃ fuel r, mmapWalk mem mmapAddr mmapLength fuel = some r ∧ Bounded mem (mmapEnd mmapAddr mmapLength) r

/-- The condition: `n` entries from a place on, or fewer, lead behind the end of the map. -/
def Reaches (mem : Memory) (mapEnd : ℕ) : (n mmap : ℕ) → Prop
  | 0, mmap => mapEnd ≤ mmap
  | n + 1, mmap => mapEnd ≤ mmap ∨ Reaches mem mapEnd n (nextEntry mem mmap)

instance decidableReaches (mem : Memory) (mapEnd : ℕ) : (n mmap : ℕ) → Decidable (Reaches mem mapEnd n mmap)
  | 0, _ => inferInstanceAs (Decidable (_ ≤ _))
  | n + 1, mmap =>
    have := decidableReaches mem mapEnd n (nextEntry mem mmap)
    inferInstanceAs (Decidable (_ ∨ _))

/-- The length of the memory at 1 MB: the last zone counts. -/
def upperLength (zones : List Zone) : ℕ := ((zones.filter Zone.upper).getLast?.map Zone.length).getD 0

variable {mem : Memory} {r : Recording} {mmap mapEnd mmapAddr mmapLength n : ℕ} {l : List ℕ}

/-! ### The loop -/

/-- The entries that have been read are in `memory_zone`. -/
structure Recorded (mem : Memory) (r : Recording) : Prop where
  count : r.i = r.entries.length
  zones : ∀ k mmap, r.entries[k]? = some mmap → r.zone k = zoneAt mem mmap
  upper : r.upperMemLength = upperLength (r.entries.map (zoneAt mem))

theorem upperLength_concat (zones : List Zone) (z : Zone) :
    upperLength (zones ++ [z]) = if z.upper then z.length else upperLength zones := by
  rw [upperLength, List.filter_append]
  by_cases hz : z.upper = true
  · rw [if_pos hz, List.filter_cons_of_pos hz, List.filter_nil, List.getLast?_append, List.getLast?_singleton,
      Option.some_or, Option.map_some, Option.getD_some]
  · rw [if_neg hz, List.filter_cons_of_neg hz, List.filter_nil, List.append_nil, upperLength]

theorem Recorded.record (h : Recorded mem r) (mmap : ℕ) : Recorded mem (record mem r mmap) where
  count := by
    show r.i + 1 = (r.entries ++ [mmap]).length
    rw [h.count, List.length_append, List.length_singleton]
  zones := by
    intro k p hp
    show Function.update r.zone r.i (zoneAt mem mmap) k = zoneAt mem p
    by_cases hk : k < r.entries.length
    · have hold : (r.entries ++ [mmap])[k]? = r.entries[k]? := List.getElem?_append_left hk
      rw [Function.update_of_ne (by rw [h.count]; exact Nat.ne_of_lt hk)]
      exact h.zones k p (hold.symm.trans hp)
    · have hlast : k = r.entries.length := by
        have hlt : k < (r.entries ++ [mmap]).length := (List.getElem?_eq_some_iff.mp hp).1
        rw [List.length_append, List.length_singleton] at hlt
        omega
      have hnew : (r.entries ++ [mmap])[k]? = some mmap := by
        rw [hlast, List.getElem?_append_right (Nat.le_refl _), Nat.sub_self]
        rfl
      obtain rfl := Option.some.inj (hnew.symm.trans hp)
      rw [hlast, ← h.count, Function.update_self]
  upper := by
    show (if (zoneAt mem mmap).upper then (zoneAt mem mmap).length else r.upperMemLength) =
      upperLength ((r.entries ++ [mmap]).map (zoneAt mem))
    rw [List.map_append, List.map_singleton, upperLength_concat, h.upper]

theorem recorded_foldl (h : Recorded mem r) : Recorded mem (l.foldl (record mem) r) ∧
    (l.foldl (record mem) r).entries = r.entries ++ l := by
  induction l generalizing r with
  | nil => exact ⟨h, (List.append_nil _).symm⟩
  | cons mmap l ih =>
    obtain ⟨hrec, hentries⟩ := ih (h.record mmap)
    refine ⟨hrec, hentries.trans ?_⟩
    show r.entries ++ [mmap] ++ l = _
    rw [List.append_assoc, List.singleton_append]

/-- A walk that ends has recorded the entries that it came by. -/
theorem mmapWalk_iff : (∃ fuel, mmapWalk mem mmapAddr mmapLength fuel = some r) ↔
    ∃ l, Trail (nextEntry mem) (Behind (mmapEnd mmapAddr mmapLength)) (kp2v mmapAddr) l ∧
      r = l.foldl (record mem) ⟨fun _ => default, 0, 0, []⟩ :=
  exists_walk_iff

/-- What is recorded at the end. -/
theorem mmapWalk_recorded {fuel : ℕ} (h : mmapWalk mem mmapAddr mmapLength fuel = some r) :
    Trail (nextEntry mem) (Behind (mmapEnd mmapAddr mmapLength)) (kp2v mmapAddr) r.entries ∧
      Recorded mem r := by
  obtain ⟨l, hl, rfl⟩ := mmapWalk_iff.mp ⟨fuel, h⟩
  have hstart : Recorded mem ⟨fun _ => default, 0, 0, []⟩ := ⟨rfl, nofun, rfl⟩
  obtain ⟨hrec, hentries⟩ := recorded_foldl (l := l) hstart
  rw [hentries]
  exact ⟨hl, hrec⟩

/-! ### The end of the map -/

/-- A trail of few entries. -/
theorem reaches_iff : Reaches mem mapEnd n mmap ↔
    ∃ l, Trail (nextEntry mem) (Behind mapEnd) mmap l ∧ l.length ≤ n := by
  induction n generalizing mmap with
  | zero =>
    constructor
    · intro h
      exact ⟨[], .done h, Nat.le_refl 0⟩
    · rintro ⟨l, hl, hlen⟩
      cases hl with
      | done h => exact h
      | visit _ _ => exact absurd hlen (Nat.not_succ_le_zero _)
  | succ n ih =>
    constructor
    · rintro (h | h)
      · exact ⟨[], .done h, Nat.zero_le _⟩
      · obtain ⟨l, hl, hlen⟩ := ih.mp h
        by_cases hstop : mapEnd ≤ mmap
        · exact ⟨[], .done hstop, Nat.zero_le _⟩
        · exact ⟨mmap :: l, .visit hstop hl, Nat.succ_le_succ hlen⟩
    · rintro ⟨l, hl, hlen⟩
      cases hl with
      | done h => exact Or.inl h
      | visit _ hrest => exact Or.inr (ih.mpr ⟨_, hrest, Nat.le_of_succ_le_succ hlen⟩)

/-- Few entries are all answered. -/
theorem Recorded.answered (h : Recorded mem r) (hfew : r.entries.length ≤ memoryZoneMax)
    {env : Systask.CoreEnv} (henv : env.memoryZoneCount = r.i) :
    answeredZones env r.zone = r.entries.map (zoneAt mem) := by
  have hmax : memoryZoneMax = 16 := rfl
  have hsize : Systask.mmapSize env / Systask.memoryZoneSize = r.entries.length := by
    rw [Systask.mmapSize, henv, h.count, Systask.memoryZoneSize]
    omega
  rw [answeredZones, hsize]
  apply List.ext_getElem
  · rw [List.length_map, List.length_range, List.length_map]
  · intro k hk₁ hk₂
    rw [List.length_map] at hk₂
    rw [List.getElem_map, List.getElem_range, List.getElem_map]
    exact h.zones k _ (List.getElem?_eq_getElem hk₂)

theorem WalkBounded.reaches (h : WalkBounded mem mmapAddr mmapLength) :
    Reaches mem (mmapEnd mmapAddr mmapLength) memoryZoneMax (kp2v mmapAddr) := by
  obtain ⟨fuel, r, hwalk, hb⟩ := h
  exact reaches_iff.mpr ⟨r.entries, (mmapWalk_recorded hwalk).1, hb.few⟩

/-- **When the walk is bounded**: sixteen entries, or fewer, lead to the end of the map. -/
theorem walkBounded_iff : WalkBounded mem mmapAddr mmapLength ↔
    Reaches mem (mmapEnd mmapAddr mmapLength) memoryZoneMax (kp2v mmapAddr) := by
  constructor
  · exact WalkBounded.reaches
  · intro h
    obtain ⟨l, hl, hlen⟩ := reaches_iff.mp h
    obtain ⟨fuel, hwalk⟩ := mmapWalk_iff.mpr ⟨l, hl, rfl⟩
    obtain ⟨htrail, hrec⟩ := mmapWalk_recorded hwalk
    rw [hl.unique htrail] at hlen
    refine ⟨fuel, _, hwalk, fun mmap hm => Nat.lt_of_not_le (htrail.not_stop hm), htrail.nodup, hlen,
      hrec.count, fun k hk => ?_, fun env henv => hrec.answered hlen henv⟩
    rw [hrec.count] at hk
    rw [List.getElem?_map, List.getElem?_eq_getElem hk, Option.map_some, Option.getD_some]
    exact hrec.zones k _ (List.getElem?_eq_getElem hk)

/-- A map at `0x9010` whose entries are of the usual size. -/
def evenMap : Memory := fun x => if x % 24 = 0 then 20 else 0

/-- Seventeen entries do not fit. -/
theorem seventeen_entries : ¬ WalkBounded evenMap 0x9010 (17 * 24) := by
  intro h
  have hreach : ¬ Reaches evenMap (mmapEnd 0x9010 (17 * 24)) memoryZoneMax (kp2v 0x9010) := by
    decide +kernel
  exact hreach h.reaches

end OmochaOS.MemoryMap

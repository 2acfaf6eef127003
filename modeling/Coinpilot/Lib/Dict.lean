import Mathlib.Data.List.Nodup
import Mathlib.Data.List.Lookmap
import Mathlib.Algebra.BigOperators.Group.List.Basic
import Mathlib.Tactic.Abel

/-!
# Ordered dictionaries

A finite map that remembers the order in which its keys were first written. A key that is written
again keeps its place. The keys are distinct by construction.
-/

set_option autoImplicit false

namespace Coinpilot.Lib

/-- The first that is found is the only one there is. -/
theorem find?_eq_some_of_unique {α : Type} {p : α → Bool} {l : List α} {a : α} (ha : a ∈ l)
    (hp : p a = true) (hunique : ∀ b ∈ l, p b = true → b = a) : l.find? p = some a := by
  cases hfind : l.find? p with
  | none => exact absurd hp (List.find?_eq_none.mp hfind a ha)
  | some b => rw [hunique b (List.mem_of_find?_eq_some hfind) (List.find?_some hfind)]

/-- A map from `κ` to `α` in the order of its keys' first writes. -/
structure Dict (κ α : Type) where
  entries : List (κ × α)
  nodup : (entries.map Prod.fst).Nodup

namespace Dict

variable {κ α β : Type}

instance [DecidableEq κ] [DecidableEq α] : DecidableEq (Dict κ α) := fun a b =>
  decidable_of_iff (a.entries = b.entries) (by cases a; cases b; simp)

def empty : Dict κ α := ⟨[], by simp⟩

instance : Inhabited (Dict κ α) := ⟨empty⟩

def keys (d : Dict κ α) : List κ := d.entries.map Prod.fst

def values (d : Dict κ α) : List α := d.entries.map Prod.snd

/-- The entries of a list that `f` keeps, with the values it gives them. -/
def keepEntries (f : κ → α → Option β) (es : List (κ × α)) : List (κ × β) :=
  es.filterMap fun e => (f e.1 e.2).map fun b => (e.1, b)

theorem keepEntries_sublist (f : κ → α → Option β) (es : List (κ × α)) :
    ((keepEntries f es).map Prod.fst).Sublist (es.map Prod.fst) := by
  induction es with
  | nil => exact List.Sublist.refl _
  | cons e es ih =>
    cases h : f e.1 e.2 with
    | none => simpa [keepEntries, List.filterMap_cons, h] using ih.cons e.1
    | some b => simpa [keepEntries, List.filterMap_cons, h] using ih

/-- The entries `f` keeps, with the values it gives them. -/
def filterMap (d : Dict κ α) (f : κ → α → Option β) : Dict κ β where
  entries := keepEntries f d.entries
  nodup := d.nodup.sublist (keepEntries_sublist f d.entries)

/-- The same keys with other values. -/
def map (d : Dict κ α) (f : κ → α → β) : Dict κ β := d.filterMap fun k a => some (f k a)

theorem ext_entries {d d' : Dict κ α} (h : d.entries = d'.entries) : d = d' := by
  cases d
  cases d'
  congr

theorem entries_map (d : Dict κ α) (f : α → β) :
    (d.map fun _ => f).entries = d.entries.map fun e => (e.1, f e.2) := by
  simp [map, filterMap, keepEntries]

theorem keys_filterMap_subset (d : Dict κ α) (f : κ → α → Option β) {k : κ}
    (h : k ∈ (d.filterMap f).keys) : k ∈ d.keys := by
  simp only [keys, filterMap, keepEntries, List.mem_map, List.mem_filterMap, Option.map_eq_some_iff] at h ⊢
  obtain ⟨e, ⟨e', he', b, -, rfl⟩, rfl⟩ := h
  exact ⟨e', he', rfl⟩

theorem mem_filterMap {d : Dict κ α} {f : κ → α → Option β} {e : κ × β} :
    e ∈ (d.filterMap f).entries ↔ ∃ a, (e.1, a) ∈ d.entries ∧ f e.1 a = some e.2 := by
  simp only [filterMap, keepEntries, List.mem_filterMap, Option.map_eq_some_iff]
  constructor
  · rintro ⟨e', he', b, hb, rfl⟩
    exact ⟨e'.2, he', hb⟩
  · rintro ⟨a, ha, hf⟩
    exact ⟨(e.1, a), ha, e.2, hf, rfl⟩

theorem mem_map {d : Dict κ α} {f : κ → α → β} {e : κ × β} :
    e ∈ (d.map f).entries ↔ ∃ a, (e.1, a) ∈ d.entries ∧ f e.1 a = e.2 := by
  simp [map, mem_filterMap]

@[simp] theorem keys_map (d : Dict κ α) (f : κ → α → β) : (d.map f).keys = d.keys := by
  simp [keys, map, filterMap, keepEntries, Function.comp_def]

/-- A dictionary with every key kept is the same keys with other values. -/
theorem filterMap_eq_map {d : Dict κ α} {f : κ → α → Option β} {g : κ → α → β}
    (h : ∀ k ∈ d.keys, ∀ a, f k a = some (g k a)) : d.filterMap f = d.map g := by
  have hentries : keepEntries f d.entries = keepEntries (fun k a => some (g k a)) d.entries := by
    refine List.filterMap_congr ?_
    intro e he
    rw [h e.1 (List.mem_map_of_mem he) e.2]
  simp only [map, filterMap, hentries]

/-! ## Values that may fail -/

/-- The values in order: the first one that fails stops it. -/
def tryEntries {ε : Type} (f : κ → α → Except ε β) : List (κ × α) → Except ε (List (κ × β))
  | [] => .ok []
  | e :: es => do
      let b ← f e.1 e.2
      let rest ← tryEntries f es
      .ok ((e.1, b) :: rest)

theorem tryEntries_keys {ε : Type} {f : κ → α → Except ε β} {es : List (κ × α)} {es' : List (κ × β)}
    (h : tryEntries f es = .ok es') : es'.map Prod.fst = es.map Prod.fst := by
  induction es generalizing es' with
  | nil =>
    obtain rfl := Except.ok.inj h
    rfl
  | cons e es ih =>
    rw [tryEntries] at h
    cases hb : f e.1 e.2 with
    | error x =>
      rw [hb] at h
      cases h
    | ok b =>
      cases hrest : tryEntries f es with
      | error x =>
        rw [hb, hrest] at h
        cases h
      | ok rest =>
        rw [hb, hrest] at h
        obtain rfl := Except.ok.inj h
        rw [List.map_cons, List.map_cons, ih hrest]

theorem tryEntries_ok {ε : Type} {f : κ → α → Except ε β} {g : κ → α → β} {es : List (κ × α)}
    (h : ∀ e ∈ es, f e.1 e.2 = .ok (g e.1 e.2)) :
    tryEntries f es = .ok (es.map fun e => (e.1, g e.1 e.2)) := by
  induction es with
  | nil => rfl
  | cons e es ih =>
    rw [tryEntries, h e List.mem_cons_self, ih fun x hx => h x (List.mem_cons_of_mem _ hx)]
    rfl

/-- The same keys with values that may fail. -/
def tryMap {ε : Type} (d : Dict κ α) (f : κ → α → Except ε β) : Except ε (Dict κ β) :=
  match h : tryEntries f d.entries with
  | .ok es => .ok ⟨es, tryEntries_keys h ▸ d.nodup⟩
  | .error e => .error e

/-- Values that do not fail are those of `map`. -/
theorem tryMap_ok {ε : Type} {d : Dict κ α} {f : κ → α → Except ε β} {g : κ → α → β}
    (h : ∀ e ∈ d.entries, f e.1 e.2 = .ok (g e.1 e.2)) : d.tryMap f = .ok (d.map g) := by
  rw [tryMap]
  split
  · rename_i es hes
    rw [tryEntries_ok h] at hes
    obtain rfl := Except.ok.inj hes
    refine congrArg Except.ok (ext_entries ?_)
    simp [map, filterMap, keepEntries]
  · rename_i e hes
    rw [tryEntries_ok h] at hes
    cases hes

/-! ## Reading and writing -/

variable [DecidableEq κ]

/-- The value of a key. -/
def get? (d : Dict κ α) (k : κ) : Option α := (d.entries.find? fun e => e.1 = k).map Prod.snd

/-- The value of a key, or a default. -/
def getD (d : Dict κ α) (k : κ) (a : α) : α := (d.get? k).getD a

/-- Write a key in a list of entries: in its place if it is there, at the end if not. -/
def setEntry (k : κ) (a : α) : List (κ × α) → List (κ × α)
  | [] => [(k, a)]
  | e :: es => if e.1 = k then (k, a) :: es else e :: setEntry k a es

theorem map_fst_setEntry (k : κ) (a : α) (es : List (κ × α)) :
    (setEntry k a es).map Prod.fst =
      if k ∈ es.map Prod.fst then es.map Prod.fst else es.map Prod.fst ++ [k] := by
  induction es with
  | nil => simp [setEntry]
  | cons e es ih =>
    unfold setEntry
    by_cases he : e.1 = k
    · simp [he]
    · have hk : k ≠ e.1 := fun h => he h.symm
      simp only [if_neg he, List.map_cons, ih, List.mem_cons, hk, false_or]
      split <;> simp

/-- Write a key. -/
def set (d : Dict κ α) (k : κ) (a : α) : Dict κ α where
  entries := setEntry k a d.entries
  nodup := by
    rw [map_fst_setEntry]
    split
    · exact d.nodup
    · rename_i h
      exact List.Nodup.append d.nodup (by simp) (by simpa using h)

/-- Remove a key. -/
def erase (d : Dict κ α) (k : κ) : Dict κ α :=
  d.filterMap fun k' a => if k' = k then none else some a

/-- Write a list of entries in order. -/
def ofList (es : List (κ × α)) : Dict κ α := es.foldl (fun d e => d.set e.1 e.2) empty

theorem mem_of_mem_setEntry {k : κ} {a : α} {es : List (κ × α)} {e : κ × α}
    (h : e ∈ setEntry k a es) : e = (k, a) ∨ e ∈ es := by
  induction es with
  | nil => exact Or.inl (by simpa [setEntry] using h)
  | cons e' es ih =>
    unfold setEntry at h
    split at h
    · rcases List.mem_cons.mp h with h | h
      · exact Or.inl h
      · exact Or.inr (List.mem_cons_of_mem _ h)
    · rcases List.mem_cons.mp h with h | h
      · exact Or.inr (h ▸ List.mem_cons_self)
      · exact (ih h).imp id (List.mem_cons_of_mem _)

theorem mem_of_mem_set {d : Dict κ α} {k : κ} {a : α} {e : κ × α} (h : e ∈ (d.set k a).entries) :
    e = (k, a) ∨ e ∈ d.entries := mem_of_mem_setEntry h

/-- What a list of entries leaves is among them. -/
theorem mem_of_mem_ofList {es : List (κ × α)} {e : κ × α} (h : e ∈ (ofList es).entries) : e ∈ es := by
  suffices hs : ∀ (es : List (κ × α)) (d : Dict κ α),
      e ∈ (es.foldl (fun d e => d.set e.1 e.2) d).entries → e ∈ d.entries ∨ e ∈ es by
    exact (hs es empty h).resolve_left List.not_mem_nil
  intro es
  induction es with
  | nil => exact fun d h => Or.inl h
  | cons e' es ih =>
    intro d h
    rcases ih _ h with h | h
    · rcases mem_of_mem_set h with rfl | h
      · exact Or.inr List.mem_cons_self
      · exact Or.inl h
    · exact Or.inr (List.mem_cons_of_mem _ h)

theorem mem_of_get? {d : Dict κ α} {k : κ} {a : α} (h : d.get? k = some a) :
    (k, a) ∈ d.entries := by
  unfold get? at h
  obtain ⟨e, he, rfl⟩ := Option.map_eq_some_iff.mp h
  have hk : e.1 = k := by simpa using List.find?_some he
  rw [← hk]
  exact List.mem_of_find?_eq_some he

theorem get?_of_mem {d : Dict κ α} {k : κ} {a : α} (h : (k, a) ∈ d.entries) : d.get? k = some a := by
  cases hg : d.get? k with
  | none =>
    unfold get? at hg
    have := List.find?_eq_none.mp (Option.map_eq_none_iff.mp hg) _ h
    simp at this
  | some b =>
    have hb := mem_of_get? hg
    have := List.inj_on_of_nodup_map d.nodup h hb rfl
    rw [(Prod.mk.injEq ..).mp this |>.2]

theorem mem_keys_iff {d : Dict κ α} {k : κ} : k ∈ d.keys ↔ ∃ a, d.get? k = some a := by
  constructor
  · intro h
    obtain ⟨e, he, rfl⟩ := List.mem_map.mp h
    exact ⟨e.2, get?_of_mem he⟩
  · rintro ⟨a, ha⟩
    exact List.mem_map.mpr ⟨_, mem_of_get? ha, rfl⟩

theorem setEntry_of_notMem {k : κ} {a : α} {es : List (κ × α)} (h : k ∉ es.map Prod.fst) :
    setEntry k a es = es ++ [(k, a)] := by
  induction es with
  | nil => rfl
  | cons e es ih =>
    rw [List.map_cons, List.mem_cons, not_or] at h
    rw [setEntry, if_neg (Ne.symm h.1), ih h.2, List.cons_append]

/-- Distinct entries are kept as they come. -/
theorem entries_ofList {es : List (κ × α)} (h : (es.map Prod.fst).Nodup) :
    (ofList es).entries = es := by
  suffices hs : ∀ (es : List (κ × α)) (d : Dict κ α), ((d.entries ++ es).map Prod.fst).Nodup →
      (es.foldl (fun d e => d.set e.1 e.2) d).entries = d.entries ++ es by
    simpa [ofList, empty] using hs es empty (by simpa [empty] using h)
  intro es
  induction es with
  | nil => intro d _; simp
  | cons e es ih =>
    intro d hd
    have hnew : e.1 ∉ d.entries.map Prod.fst := by
      intro hmem
      rw [List.map_append, List.map_cons] at hd
      exact (List.nodup_append.mp hd).2.2 _ hmem _ List.mem_cons_self rfl
    have hset : (d.set e.1 e.2).entries = d.entries ++ [e] := setEntry_of_notMem hnew
    rw [List.foldl_cons, ih _ (by rw [hset]; simpa using hd), hset]
    simp

theorem get?_filterMap (d : Dict κ α) (f : κ → α → Option β) (k : κ) :
    (d.filterMap f).get? k = (d.get? k).bind (f k) := by
  cases hg : (d.filterMap f).get? k with
  | some b =>
    obtain ⟨a, ha, hb⟩ := mem_filterMap.mp (mem_of_get? hg)
    rw [get?_of_mem ha, Option.bind_some, hb]
  | none =>
    cases ha : d.get? k with
    | none => rfl
    | some a =>
      rw [Option.bind_some]
      cases hb : f k a with
      | none => rfl
      | some b =>
        have hmem : (k, b) ∈ (d.filterMap f).entries := mem_filterMap.mpr ⟨a, mem_of_get? ha, hb⟩
        rw [get?_of_mem hmem] at hg
        cases hg

theorem get?_map (d : Dict κ α) (f : κ → α → β) (k : κ) : (d.map f).get? k = (d.get? k).map (f k) := by
  rw [map, get?_filterMap]
  cases d.get? k <;> rfl

theorem getD_map {d : Dict κ α} (f : κ → α → β) {k : κ} (h : k ∈ d.keys) (a : α) (b : β) :
    (d.map f).getD k b = f k (d.getD k a) := by
  obtain ⟨v, hv⟩ := mem_keys_iff.mp h
  simp [getD, get?_map, hv]

theorem getD_erase {d : Dict κ α} {k k' : κ} (h : k' ≠ k) (a : α) : (d.erase k).getD k' a = d.getD k' a := by
  rw [getD, erase, get?_filterMap, getD]
  cases d.get? k' with
  | none => rfl
  | some b => simp [h]

theorem find?_setEntry (k k' : κ) (a : α) (es : List (κ × α)) :
    ((setEntry k a es).find? fun e => e.1 = k').map Prod.snd =
      if k' = k then some a else (es.find? fun e => e.1 = k').map Prod.snd := by
  induction es with
  | nil =>
    by_cases hk : k' = k
    · simp [setEntry, hk]
    · simp [setEntry, hk, Ne.symm hk]
  | cons e es ih =>
    unfold setEntry
    by_cases he : e.1 = k
    · by_cases hk : k' = k
      · simp [he, hk]
      · simp [he, hk, Ne.symm hk]
    · by_cases hk : k' = e.1
      · subst hk
        simp [he]
      · simp [he, Ne.symm hk, ih]

theorem get?_set (d : Dict κ α) (k k' : κ) (a : α) :
    (d.set k a).get? k' = if k' = k then some a else d.get? k' := find?_setEntry k k' a d.entries

/-- The values of a dictionary, read key by key. -/
theorem values_map (d : Dict κ α) (f : κ → α → β) (a : α) :
    (d.map f).values = d.keys.map fun k => f k (d.getD k a) := by
  have hentries : (d.map f).entries = d.entries.map fun e => (e.1, f e.1 e.2) := by
    simp [map, filterMap, keepEntries]
  have hvalue : ∀ e ∈ d.entries, f e.1 e.2 = f e.1 (d.getD e.1 a) := by
    intro e he
    simp [getD, get?_of_mem (show (e.1, e.2) ∈ d.entries from he)]
  simp only [values, keys, hentries, List.map_map]
  exact List.map_congr_left hvalue

theorem values_eq (d : Dict κ α) (a : α) : d.values = d.keys.map fun k => d.getD k a := by
  rw [← values_map d (fun _ v => v) a]
  simp [values, map, filterMap, keepEntries]

/-- Looking up distinct keys, all those of a dictionary among them, finds its values. -/
theorem filterMap_get?_perm (d : Dict κ α) {ks : List κ} (hks : ks.Nodup) (hall : ∀ k ∈ d.keys, k ∈ ks) :
    (ks.filterMap d.get?).Perm d.values := by
  have hfound : ks.filterMap d.get? = (ks.filter fun k => k ∈ d.keys).filterMap d.get? := by
    rw [List.filterMap_filter]
    refine List.filterMap_congr ?_
    intro k _
    by_cases hk : k ∈ d.keys
    · simp [hk]
    · have hnone : d.get? k = none := by
        rw [← Option.not_isSome_iff_eq_none, Option.isSome_iff_exists]
        exact fun hsome => hk (mem_keys_iff.mpr hsome)
      simp [hk, hnone]
  have hkeys : (ks.filter fun k => k ∈ d.keys).Perm d.keys := by
    have hnodup : d.keys.Nodup := d.nodup
    rw [List.perm_ext_iff_of_nodup (hks.filter _) hnodup]
    intro k
    rw [List.mem_filter, decide_eq_true_iff]
    exact ⟨fun h => h.2, fun h => ⟨hall k h, h⟩⟩
  have hvalues : d.keys.filterMap d.get? = d.values := by
    rw [keys, values, List.filterMap_map, ← List.filterMap_eq_map]
    refine List.filterMap_congr ?_
    intro e he
    exact get?_of_mem he
  rw [hfound]
  exact (hkeys.filterMap d.get?).trans (List.Perm.of_eq hvalues)

theorem map_setEntry (f : α → β) (k : κ) (a : α) (es : List (κ × α)) :
    (setEntry k a es).map (fun e => (e.1, f e.2)) = setEntry k (f a) (es.map fun e => (e.1, f e.2)) := by
  induction es with
  | nil => rfl
  | cons e es ih =>
    unfold setEntry
    by_cases he : e.1 = k
    · simp [he]
    · simp [he, ih]

/-- Writing and then mapping is mapping and then writing. -/
theorem map_ofList (es : List (κ × α)) (f : α → β) :
    (ofList es).map (fun _ => f) = ofList (es.map fun e => (e.1, f e.2)) := by
  have hset : ∀ (d : Dict κ α) (k : κ) (a : α),
      (d.set k a).map (fun _ => f) = (d.map fun _ => f).set k (f a) := by
    intro d k a
    apply ext_entries
    rw [entries_map]
    change (setEntry k a d.entries).map _ = setEntry k (f a) (d.map fun _ => f).entries
    rw [entries_map, map_setEntry]
  suffices hs : ∀ d : Dict κ α, (es.foldl (fun d e => d.set e.1 e.2) d).map (fun _ => f) =
      (es.map fun e => (e.1, f e.2)).foldl (fun d e => d.set e.1 e.2) (d.map fun _ => f) by
    exact hs empty
  induction es with
  | nil => intro d; rfl
  | cons e es ih =>
    intro d
    rw [List.foldl_cons, ih, hset, List.map_cons, List.foldl_cons]

theorem sum_setEntry [AddCommMonoid α] (k : κ) (a : α) (es : List (κ × α)) :
    ((setEntry k a es).map Prod.snd).sum + ((es.find? fun e => e.1 = k).map Prod.snd).getD 0 =
      (es.map Prod.snd).sum + a := by
  induction es with
  | nil => simp [setEntry]
  | cons e es ih =>
    unfold setEntry
    by_cases he : e.1 = k
    · simp only [he, if_true, decide_true, List.map_cons, List.sum_cons, List.find?_cons_of_pos, Option.map_some,
        Option.getD_some]
      abel
    · simp only [he, if_false, decide_false, List.map_cons, List.sum_cons, Bool.false_eq_true,
        not_false_eq_true, List.find?_cons_of_neg, add_assoc, ih]

/-- Setting a key moves the sum by what the key changes. -/
theorem sum_set [AddCommMonoid α] (d : Dict κ α) (k : κ) (a : α) :
    (d.set k a).values.sum + d.getD k 0 = d.values.sum + a := sum_setEntry k a d.entries

/-! ## Writing many keys, and reading some -/

/-- Write every entry of another dictionary. -/
def update (d e : Dict κ α) : Dict κ α := e.entries.foldl (fun d e => d.set e.1 e.2) d

/-- The last value that a list of entries gives a key stands. -/
theorem get?_foldl_set (es : List (κ × α)) (d : Dict κ α) (k : κ) :
    (es.foldl (fun d e => d.set e.1 e.2) d).get? k =
      ((es.reverse.find? fun e => e.1 = k).map Prod.snd).or (d.get? k) := by
  induction es generalizing d with
  | nil => rfl
  | cons e es ih =>
    rw [List.foldl_cons, ih, get?_set, List.reverse_cons, List.find?_append]
    cases es.reverse.find? fun e => decide (e.1 = k) with
    | some hit => rfl
    | none =>
      by_cases hk : k = e.1
      · simp [hk]
      · simp [hk, Ne.symm hk]

theorem get?_update (d e : Dict κ α) (k : κ) : (d.update e).get? k = (e.get? k).or (d.get? k) := by
  rw [update, get?_foldl_set]
  congr 1
  cases hfind : e.entries.reverse.find? fun e => decide (e.1 = k) with
  | none =>
    cases hget : e.get? k with
    | none => rfl
    | some a =>
      have hmem := List.mem_reverse.mpr (mem_of_get? hget)
      exact absurd (decide_eq_true rfl) (List.find?_eq_none.mp hfind _ hmem)
  | some hit =>
    have hmem := List.mem_reverse.mp (List.mem_of_find?_eq_some hfind)
    have hkey : hit.1 = k := by simpa using List.find?_some hfind
    rw [← hkey]
    exact (get?_of_mem hmem).symm

/-- The entries of these keys, in the order of the keys. -/
def restrict (d : Dict κ α) (ks : List κ) : Dict κ α :=
  ofList (ks.filterMap fun k => (d.get? k).map fun a => (k, a))

theorem get?_restrict (d : Dict κ α) (ks : List κ) (k : κ) :
    (d.restrict ks).get? k = if k ∈ ks then d.get? k else none := by
  cases hget : (d.restrict ks).get? k with
  | some a =>
    obtain ⟨k', hk', hentry⟩ := List.mem_filterMap.mp (mem_of_mem_ofList (mem_of_get? hget))
    obtain ⟨b, hb, heq⟩ := Option.map_eq_some_iff.mp hentry
    cases heq
    rw [if_pos hk', hb]
  | none =>
    rw [restrict, ofList, get?_foldl_set] at hget
    have hnone := Option.map_eq_none_iff.mp (Option.or_eq_none_iff.mp hget).1
    by_cases hk : k ∈ ks
    · rw [if_pos hk]
      cases hd : d.get? k with
      | none => rfl
      | some a =>
        have hmem : (k, a) ∈ ks.filterMap fun k => (d.get? k).map fun a => (k, a) :=
          List.mem_filterMap.mpr ⟨k, hk, by rw [hd]; rfl⟩
        exact absurd (decide_eq_true rfl) (List.find?_eq_none.mp hnone _ (List.mem_reverse.mpr hmem))
    · rw [if_neg hk]

end Dict

end Coinpilot.Lib

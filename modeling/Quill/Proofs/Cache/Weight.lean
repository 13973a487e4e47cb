import Mathlib.Algebra.Order.BigOperators.Group.List
import Mathlib.Data.List.Sublists
import Quill.Proofs.Cache.Moves
import Quill.Proofs.Data.Dict
import Quill.Proofs.Number.Rounding

/-!
# The weight of stored values

The cache counts the weight of what it stores as values come and go, and evicts values until the
weight fits. Weights that are added without rounding are counted in whole units. The score by which
the cache chooses what goes is below every bound, so that nothing stops it but the value that was
just stored.

## Main definitions

* `LawfulWeight` — weights as whole multiples of one unit; doubles and integers are such.
* `Cache.Exact` — the sum of any choice of some weights is not rounded.
* `Cache.total` — the weight of stored values, added up.
* `Cache.Counted` — the weight that is counted is this one.
* `Cache.Weighed` — the same, and every value weighs something.
* `Cache.Lightens` — stored values have gone, and their weight with them.

## Main statements

* `Cache.exact_of_small` — small natural numbers are added without rounding.
* `Cache.Counted.use`, `Cache.Counted.put`, `Cache.Counted.remove` — a value is used, comes or goes.
* `Cache.lightens_prune`, `Cache.lightens_invalidateKind`, `Cache.lightens_clear` — values go.
* `Cache.prune_fits` — when no more values go, the weight fits or a single value is left.
-/

namespace Quill

/-! ## Units -/

/-- Weights as whole multiples of one unit. What can be held is added and subtracted exactly. -/
class LawfulWeight (W : Type) [Weight W] where
  /-- Whether a weight is a multiple of the unit. -/
  IsWhole : W → Prop
  units : W → Int
  /-- Whether a weight can be so many units. -/
  Holds : Int → Prop
  zero : IsWhole Weight.zero ∧ units Weight.zero = 0
  holds_zero : Holds 0
  add : ∀ {v w}, IsWhole v → IsWhole w → Holds (units v + units w) →
    IsWhole (Weight.add v w) ∧ units (Weight.add v w) = units v + units w
  sub : ∀ {v w}, IsWhole v → IsWhole w → Holds (units v - units w) →
    IsWhole (Weight.sub v w) ∧ units (Weight.sub v w) = units v - units w
  lt_iff : ∀ {v w}, IsWhole v → IsWhole w → (Weight.lt v w = true ↔ units v < units w)
  lt_mono : ∀ {l v w : W}, IsWhole v → IsWhole w → units v ≤ units w →
    Weight.lt l v = true → Weight.lt l w = true

instance : LawfulWeight Number where
  IsWhole := fun w => w.isFinite = true
  units := Number.units
  Holds := Number.Holds
  zero := ⟨rfl, rfl⟩
  holds_zero := by decide +kernel
  add := Number.add_of_holds
  sub := Number.sub_of_holds
  lt_iff := Number.lt_iff
  lt_mono := Number.lt_of_lt_of_units_le

instance : LawfulWeight Int where
  IsWhole := fun _ => True
  units := id
  Holds := fun _ => True
  zero := ⟨trivial, rfl⟩
  holds_zero := trivial
  add := fun _ _ _ => ⟨trivial, rfl⟩
  sub := fun _ _ _ => ⟨trivial, rfl⟩
  lt_iff := by simp [Weight.lt]
  lt_mono := by
    simp only [Weight.lt, decide_eq_true_eq, id]
    exact fun _ _ le below => Int.lt_of_lt_of_le below le

namespace Cache

open LawfulWeight

variable {τ ω α W : Type} [Weight W] [LawfulWeight W]

/-- The sum of any choice of the weights can be held. -/
def Exact (ws : List W) : Prop :=
  (∀ w ∈ ws, IsWhole w) ∧ ∀ part ∈ ws.sublists, Holds W (part.map units).sum

theorem Exact.sublist {ws ws' : List W} (h : Exact ws) (part : ws'.Sublist ws) : Exact ws' :=
  ⟨fun w mem => h.1 w (part.subset mem), fun ws'' part' =>
    h.2 ws'' (List.mem_sublists.2 ((List.mem_sublists.1 part').trans part))⟩

theorem Exact.holds {ws : List W} (h : Exact ws) : Holds W (ws.map units).sum :=
  h.2 ws (List.mem_sublists.2 (.refl ws))

/-- Integers are not rounded. -/
theorem exact_of_int (ws : List Int) : Exact ws := ⟨fun _ _ => trivial, fun _ _ => trivial⟩

instance (ws : List Number) : Decidable (Exact ws) :=
  inferInstanceAs (Decidable ((∀ w ∈ ws, w.isFinite = true) ∧
    ∀ part ∈ ws.sublists, Number.Holds (part.map Number.units).sum))

/-- Natural numbers that are small all together are not rounded. -/
theorem exact_of_small {ns : List ℕ} (small : ns.sum < 2 ^ 53) : Exact (ns.map Number.ofNat) := by
  have single {n : ℕ} (mem : n ∈ ns) : n < 2 ^ 53 :=
    (List.le_sum_of_mem mem).trans_lt small
  constructor
  · exact List.forall_mem_map.2 fun n mem => (Number.units_ofNat (single mem)).1
  · intro part mem
    obtain ⟨ns', part', rfl⟩ := List.sublist_map_iff.1 (List.mem_sublists.1 mem)
    have sum : ∀ ns' ⊆ ns, ((ns'.map Number.ofNat).map Number.units).sum = (ns'.sum : ℕ) *
        Number.perOne := by
      intro ns' part
      induction ns' with
      | nil => simp only [List.map_nil, List.sum_nil, Nat.cast_zero, Int.zero_mul]
      | cons n ns' ih =>
        obtain ⟨first, part⟩ := List.cons_subset.1 part
        rw [List.map_cons, List.map_cons, List.sum_cons, List.sum_cons, ih part,
          (Number.units_ofNat (single first)).2, Nat.cast_add, Int.add_mul]
    show Number.Holds ((ns'.map Number.ofNat).map Number.units).sum
    rw [sum ns' part'.subset]
    exact Number.holds_of_lt ((part'.sum_le_sum fun _ _ => Nat.zero_le _).trans_lt small)

def weightsOf (entries : Dict CacheKey (CacheEntry α W)) : List W := entries.map (·.2.weight)

def total (entries : Dict CacheKey (CacheEntry α W)) : Int := Dict.sumOf (units ·.weight) entries

omit [Weight W] [LawfulWeight W] in
theorem weightsOf_sublist {entries entries' : Dict CacheKey (CacheEntry α W)}
    (part : entries'.Sublist entries) : (weightsOf entries').Sublist (weightsOf entries) :=
      part.map _

theorem total_eq_sum (entries : Dict CacheKey (CacheEntry α W)) :
    total entries = ((weightsOf entries).map units).sum := by
  induction entries with
  | nil => rfl
  | cons e rest ih => simpa [total, weightsOf] using ih

/-- A cache counts the weight of its values. There is one value for a key. -/
structure Counted (c : Cache τ ω α W) : Prop where
  distinct : (Dict.keys c.entries).Nodup
  exact : Exact (weightsOf c.entries)
  whole : IsWhole c.weight
  weight : units c.weight = total c.entries

/-- A cache counts the weight of its values, and each of them weighs something. -/
structure Weighed (c : Cache τ ω α W) : Prop extends Counted c where
  positive : ∀ e ∈ c.entries, 0 < units e.2.weight

variable {c c' c'' : Cache τ ω α W} {key : CacheKey} {e : CacheEntry α W}

theorem total_le_of_sublist {entries entries' : Dict CacheKey (CacheEntry α W)}
    (part : entries'.Sublist entries) (positive : ∀ e ∈ entries, 0 < units e.2.weight) :
    total entries' ≤ total entries := by
  induction part with
  | slnil => exact Int.le_refl 0
  | cons e _ ih =>
    obtain ⟨first, others⟩ := List.forall_mem_cons.1 positive
    have := ih others
    simp only [total, Dict.sumOf_cons] at *
    omega
  | cons_cons e _ ih =>
    have := ih (List.forall_mem_cons.1 positive).2
    simp only [total, Dict.sumOf_cons] at *
    omega

theorem Weighed.nonneg (h : c.Weighed) : 0 ≤ units c.weight :=
  h.weight ▸ total_le_of_sublist (List.nil_sublist _) h.positive

omit [LawfulWeight W] in
theorem mem_entries (found : Dict.get? c.entries key = some e) : (key, e) ∈ c.entries := by
  obtain ⟨before, behind, split, -⟩ := Dict.get?_eq_some_split found
  simp [split]

theorem Counted.empty (empty : c.entries = []) (none : c.weight = Weight.zero) : c.Counted := by
  obtain ⟨whole, zero⟩ := LawfulWeight.zero (W := W)
  refine ⟨by simp [empty, Dict.keys], ?_, none ▸ whole, by rw [none, zero, empty]; rfl⟩
  rw [empty]
  exact ⟨by simp [weightsOf], by simpa [weightsOf] using LawfulWeight.holds_zero (W := W)⟩

/-- What is counted depends on the stored values and their weight only. -/
theorem Counted.congr (h : c.Counted) (entries : c'.entries = c.entries)
    (weight : c'.weight = c.weight) : c'.Counted := by
  obtain ⟨distinct, exact, whole, sum⟩ := h
  constructor <;> simp only [entries, weight] <;> assumption

theorem Weighed.congr (h : c.Weighed) (entries : c'.entries = c.entries)
    (weight : c'.weight = c.weight) : c'.Weighed :=
  ⟨h.toCounted.congr entries weight, entries ▸ h.positive⟩

/-- A value is used: it keeps its weight. -/
theorem Counted.use (h : c.Counted) (found : Dict.get? c.entries key = some e) (e' : CacheEntry α W)
    (same : e'.weight = e.weight) (generation : Nat) :
    Counted { c with entries := Dict.put c.entries key e', generation } where
  distinct := Dict.nodup_keys_put h.distinct key e'
  exact := by
    have weights := Dict.map_put_of_eq CacheEntry.weight found same
    exact (congrArg Exact weights).mpr h.exact
  whole := h.whole
  weight := by
    have sum := Dict.sumOf_put (units ·.weight) c.entries key e'
    have := h.weight
    simp only [found, Option.map_some, Option.getD_some, same, total] at *
    omega

/-- A value comes under a new key. -/
theorem Counted.put (h : c.Counted) (new : Dict.has c.entries key = false) (e : CacheEntry α W)
    (exact : Exact (weightsOf c.entries ++ [e.weight])) (generation : Nat) :
    Counted { c with
      generation, entries := Dict.put c.entries key e, weight :=
        Weight.add c.weight e.weight } := by
  have entries := Dict.put_of_not_has new e
  have sum : ((weightsOf c.entries ++ [e.weight]).map units).sum =
      units c.weight + units e.weight := by
    simp [h.weight, total_eq_sum]
  obtain ⟨whole, weight⟩ :=
    LawfulWeight.add h.whole (exact.1 e.weight (by simp)) (sum ▸ exact.holds)
  refine ⟨Dict.nodup_keys_put h.distinct key e, ?_, whole, ?_⟩
  · simpa [entries, weightsOf] using exact
  · rw [weight, entries, total_eq_sum, ← sum]
    simp [weightsOf]

/-- A value goes. -/
theorem Counted.remove (h : c.Counted) (found : Dict.get? c.entries key = some e) :
    (c.remove key e).Counted := by
  have left : (Dict.erase c.entries key).Sublist c.entries := List.filter_sublist
  have sum := Dict.sumOf_erase (units ·.weight) h.distinct key
  have exact := h.exact.sublist (weightsOf_sublist left)
  have own := h.exact.1 e.weight (List.mem_map_of_mem (mem_entries found))
  have diff : units c.weight - units e.weight = total (Dict.erase c.entries key) := by
    simp only [found, Option.map_some, Option.getD_some, h.weight, total] at *
    omega
  have holds := exact.holds
  rw [← total_eq_sum, ← diff] at holds
  obtain ⟨whole, weight⟩ := LawfulWeight.sub h.whole own holds
  exact ⟨Dict.nodup_keys_erase h.distinct key, exact, whole, weight.trans diff⟩

theorem Weighed.use (h : c.Weighed) (found : Dict.get? c.entries key = some e) (e' : CacheEntry α W)
    (same : e'.weight = e.weight) (generation : Nat) :
    Weighed { c with entries := Dict.put c.entries key e', generation } where
  toCounted := h.toCounted.use found e' same generation
  positive := by
    intro x mem
    obtain rfl | mem := Dict.mem_put mem
    · exact same ▸ h.positive _ (mem_entries found)
    · exact h.positive x mem

theorem Weighed.put (h : c.Weighed) (new : Dict.has c.entries key = false)
    (positive : 0 < units e.weight) (exact : Exact (weightsOf c.entries ++ [e.weight]))
    (generation : Nat) :
    Weighed { c with
      generation, entries := Dict.put c.entries key e, weight :=
        Weight.add c.weight e.weight } where
  toCounted := h.toCounted.put new e exact generation
  positive := by
    intro x mem
    obtain rfl | mem := Dict.mem_put mem
    · exact positive
    · exact h.positive x mem

/-! ## Values that go -/

/-- The cache `c'` is what is left of `c` when some stored values have gone. -/
structure Lightens (c c' : Cache τ ω α W) : Prop where
  entries : c'.entries.Sublist c.entries
  weighed : c'.Weighed
  weight : units c'.weight ≤ units c.weight
  maxWeight : c'.maxWeight = c.maxWeight
  policy : c'.policy = c.policy
  flights : c'.flights = c.flights
  nextFlight : c'.nextFlight = c.nextFlight

/-- Values have gone, and what is left is counted. -/
theorem Weighed.lightens_of_sublist (h : c.Weighed) (entries : c'.entries.Sublist c.entries)
    (counted : c'.Counted) (maxWeight : c'.maxWeight = c.maxWeight) (policy : c'.policy = c.policy)
    (flights : c'.flights = c.flights) (nextFlight : c'.nextFlight = c.nextFlight) :
    c.Lightens c' where
  entries := entries
  weighed := ⟨counted, fun e mem => h.positive e (entries.subset mem)⟩
  weight := by
    rw [counted.weight, h.weight]
    exact total_le_of_sublist entries h.positive
  maxWeight := maxWeight
  policy := policy
  flights := flights
  nextFlight := nextFlight

theorem Weighed.lightens (h : c.Weighed) : c.Lightens c :=
  h.lightens_of_sublist (.refl _) h.toCounted rfl rfl rfl rfl

theorem Lightens.trans (h : c.Lightens c') (g : c'.Lightens c'') : c.Lightens c'' :=
  ⟨g.entries.trans h.entries, g.weighed, Int.le_trans g.weight h.weight,
    g.maxWeight.trans h.maxWeight, g.policy.trans h.policy, g.flights.trans h.flights,
    g.nextFlight.trans h.nextFlight⟩

theorem Lightens.keys (h : c.Lightens c') : (Dict.keys c'.entries).Sublist (Dict.keys c.entries) :=
  h.entries.map _

theorem Lightens.has (h : c.Lightens c') (there : c'.has key = true) : c.has key = true :=
  Dict.mem_keys_iff.1 (h.keys.subset (Dict.mem_keys_iff.2 there))

theorem lightens_count (h : c.Weighed) (f : CacheCounters → CacheCounters) :
    c.Lightens (c.count f) :=
  { h.lightens with weighed := h.congr rfl rfl }

theorem lightens_remove (h : c.Weighed) (found : Dict.get? c.entries key = some e) :
    c.Lightens (c.remove key e) :=
  h.lightens_of_sublist List.filter_sublist (h.toCounted.remove found) rfl rfl rfl rfl

theorem lightens_clear (h : c.Weighed) : c.Lightens c.clear.1 :=
  h.lightens_of_sublist (List.nil_sublist _) (.empty rfl rfl) rfl rfl rfl rfl

omit [LawfulWeight W] in
/-- Values go one after another. -/
theorem remove_all (c : Cache τ ω α W) (gone : Dict CacheKey (CacheEntry α W)) :
    gone.foldl (fun c e => c.remove e.1 e.2) c =
      { c with
        entries := c.entries.filter (·.1 ∉ Dict.keys gone)
        weight := gone.foldl (fun w e => Weight.sub w e.2.weight) c.weight } := by
  induction gone generalizing c with
  | nil => simp [Dict.keys]
  | cons e gone ih =>
    have later : (Dict.erase c.entries e.1).filter (·.1 ∉ Dict.keys gone) =
        c.entries.filter (·.1 ∉ Dict.keys (e :: gone)) := by
      simp only [Dict.erase, List.filter_filter]
      exact List.filter_congr fun x _ => by grind [Dict.keys]
    rw [List.foldl_cons, ih]
    simp only [remove, later, List.foldl_cons]

theorem Counted.remove_all (h : c.Counted) {gone : Dict CacheKey (CacheEntry α W)}
    (distinct : (Dict.keys gone).Nodup)
    (there : ∀ e ∈ gone, Dict.get? c.entries e.1 = some e.2) :
    (gone.foldl (fun c e => c.remove e.1 e.2) c).Counted := by
  induction gone generalizing c with
  | nil => exact h
  | cons e gone ih =>
    obtain ⟨first, there⟩ := List.forall_mem_cons.1 there
    obtain ⟨new, distinct⟩ := List.nodup_cons.1 distinct
    refine ih (h.remove first) distinct fun x mem => ?_
    have other : x.1 ≠ e.1 := fun same => new (same ▸ List.mem_map_of_mem mem)
    exact (Dict.get?_erase_of_ne _ other).trans (there x mem)

omit [LawfulWeight W] in
/-- The values of a kind go at once. -/
theorem invalidateKind_eq (distinct : (Dict.keys c.entries).Nodup) (kind : Text) :
    ∃ weight, (c.invalidateKind kind).1 =
      { c with entries := c.entries.filter (·.2.kind != kind), weight } := by
  rw [invalidateKind, remove_all]
  suffices left : c.entries.filter (·.1 ∉ Dict.keys (c.entries.filter (·.2.kind == kind))) =
      c.entries.filter (·.2.kind != kind) from ⟨_, by rw [left]⟩
  refine List.filter_congr fun e mem => ?_
  have gone : e.1 ∈ Dict.keys (c.entries.filter (·.2.kind == kind)) ↔ e.2.kind = kind := by
    refine ⟨fun there => ?_, fun same =>
      List.mem_map_of_mem (List.mem_filter.2 ⟨mem, by simpa using same⟩)⟩
    obtain ⟨x, there, key⟩ := List.mem_map.1 there
    obtain ⟨there, same⟩ := List.mem_filter.1 there
    rw [List.inj_on_of_nodup_map distinct there mem key] at same
    simpa using same
  rw [Bool.eq_iff_iff, decide_eq_true_iff, gone, bne_iff_ne]

theorem Counted.invalidateKind (h : c.Counted) (kind : Text) :
    (c.invalidateKind kind).1.Counted := by
  have part : (c.entries.filter (·.2.kind == kind)).Sublist c.entries := List.filter_sublist
  exact h.remove_all (h.distinct.sublist (part.map _)) fun e mem =>
    (Dict.get?_eq_some_iff h.distinct).2 (part.subset mem)

theorem lightens_invalidateKind (h : c.Weighed) (kind : Text) :
    c.Lightens (c.invalidateKind kind).1 := by
  have counted := h.toCounted.invalidateKind kind
  obtain ⟨weight, eq⟩ := invalidateKind_eq h.distinct kind
  rw [eq] at counted ⊢
  exact h.lightens_of_sublist List.filter_sublist counted rfl rfl rfl rfl

/-! ## Eviction -/

/-- A score below every bound. -/
theorem default_lt_unbounded (x : Candidate) (generation : Nat) :
    (EvictionPolicy.default x generation).lt .unbounded = true := rfl

section

variable {policy : EvictionPolicy} {generation : Nat} {keep : Option CacheKey}
  {best : Option (CacheKey × CacheEntry α W)} {lowest : Score}
  {entries : List (CacheKey × CacheEntry α W)}

omit [LawfulWeight W] in
/-- What is evicted is there, and is not what is to be kept. -/
theorem victim?_eq_some {score : Score}
    (victim : victim? policy generation keep best lowest entries = some (key, e, score)) :
    best = some (key, e) ∨ (key, e) ∈ entries ∧ some key ≠ keep := by
  induction entries generalizing best lowest with
  | nil =>
    obtain ⟨b, is, eq⟩ := Option.map_eq_some_iff.1 victim
    exact .inl (by grind)
  | cons x rest ih =>
    unfold victim? at victim
    simp only at victim
    split at victim
    next lower =>
      obtain first | ⟨mem, other⟩ := ih victim
      · obtain rfl : x = (key, e) := Option.some.inj first
        simp only [Bool.and_eq_true, decide_eq_true_eq] at lower
        exact .inr ⟨List.mem_cons_self, lower.1⟩
      · exact .inr ⟨List.mem_cons_of_mem _ mem, other⟩
    next => exact (ih victim).imp_right fun there => ⟨List.mem_cons_of_mem _ there.1, there.2⟩

omit [LawfulWeight W] in
/-- Where every score is below every bound, everything may go but what is to be kept. -/
theorem victim?_eq_none (bounded : ∀ x, (policy x generation).lt .unbounded = true)
    (none : victim? policy generation keep Option.none .unbounded entries = Option.none) :
    ∀ x ∈ entries, some x.1 = keep := by
  have found (b : CacheKey × CacheEntry α W) (lowest : Score)
      (entries : List (CacheKey × CacheEntry α W)) :
      victim? policy generation keep (some b) lowest entries ≠ Option.none := by
    induction entries generalizing b lowest with
    | nil => simp [victim?]
    | cons x rest ih =>
      unfold victim?
      simp only
      split
      · exact ih _ _
      · exact ih _ _
  induction entries with
  | nil => simp
  | cons x rest ih =>
    unfold victim? at none
    simp only [bounded, Bool.and_true, decide_eq_true_eq] at none
    split at none
    next other => exact absurd none (found _ _ _)
    next kept => exact List.forall_mem_cons.2 ⟨Classical.not_not.1 kept, ih none⟩

end

variable {keep : Option CacheKey} {n : Nat}

theorem lightens_pruneAtMost (h : c.Weighed) (keep : Option CacheKey) (n : Nat) :
    c.Lightens (pruneAtMost keep n c).1 := by
  induction n generalizing c with
  | zero => exact h.lightens
  | succ n ih =>
    rw [pruneAtMost]
    split
    · split
      · exact h.lightens
      next key e score victim =>
        obtain first | ⟨mem, -⟩ := victim?_eq_some victim
        · cases first
        · have removed := lightens_remove h ((Dict.get?_eq_some_iff h.distinct).2 mem)
          have counted := lightens_count removed.weighed fun s =>
            { s with evictions := s.evictions + 1 }
          exact (removed.trans counted).trans (ih counted.weighed)
    · exact h.lightens

theorem lightens_prune (h : c.Weighed) (keep : Option CacheKey) : c.Lightens (c.prune keep).1 :=
  lightens_pruneAtMost h keep _

theorem has_prune (h : c.Weighed) (key : CacheKey) (there : c.has key = true) :
    (c.prune (some key)).1.has key = true := by
  suffices all : ∀ n (c : Cache τ ω α W), c.Weighed → c.has key = true →
      (pruneAtMost (some key) n c).1.has key = true from all _ c h there
  intro n
  induction n with
  | zero => exact fun c _ there => there
  | succ n ih =>
    intro c h there
    rw [pruneAtMost]
    split
    · split
      · exact there
      next key' e score victim =>
        obtain first | ⟨mem, other⟩ := victim?_eq_some victim
        · cases first
        · have removed := lightens_remove h ((Dict.get?_eq_some_iff h.distinct).2 mem)
          have stays : (c.remove key' e).has key = true := by
            have other : key ≠ key' := fun same => other (congrArg some same.symm)
            simpa [has, remove, Dict.has, Dict.get?_erase_of_ne _ other] using there
          exact ih _ (lightens_count removed.weighed _).weighed stays
    · exact there

theorem Weighed.keys_eq (h : c.Weighed) (there : c.has key = true)
    (only : ∀ e ∈ c.entries, e.1 = key) : Dict.keys c.entries = [key] := by
  have all : ∀ k ∈ Dict.keys c.entries, k = key := List.forall_mem_map.2 only
  have one := h.distinct
  have mem := Dict.mem_keys_iff.2 there
  rw [List.eq_replicate_of_mem all, List.nodup_replicate] at one
  rw [List.eq_replicate_of_mem all, Nat.le_antisymm one (List.length_pos_of_mem mem)]
  rfl

/-- Values go until the weight fits, or none is left but the one to be kept. -/
theorem prune_fits (h : c.Weighed) (policy : c.policy = .default) (keep : Option CacheKey) :
    Weight.lt (c.prune keep).1.maxWeight (c.prune keep).1.weight = false ∨
      ∀ e ∈ (c.prune keep).1.entries, some e.1 = keep := by
  suffices all : ∀ n (c : Cache τ ω α W), c.Weighed → c.policy = .default → c.entries.length ≤ n →
      Weight.lt (pruneAtMost keep n c).1.maxWeight (pruneAtMost keep n c).1.weight = false ∨
        ∀ e ∈ (pruneAtMost keep n c).1.entries, some e.1 = keep from
    all _ c h policy (Nat.le_refl _)
  intro n
  induction n with
  | zero =>
    intro c _ _ few
    have none : c.entries = [] := List.length_eq_zero_iff.1 (Nat.le_zero.1 few)
    exact .inr (by simp [pruneAtMost, none])
  | succ n ih =>
    intro c h policy few
    rw [pruneAtMost]
    split
    next heavy =>
      split
      next none =>
        refine .inr (victim?_eq_none (fun x => ?_) none)
        exact policy ▸ default_lt_unbounded x c.generation
      next key e score victim =>
        obtain first | ⟨mem, -⟩ := victim?_eq_some victim
        · cases first
        · have removed := lightens_remove h ((Dict.get?_eq_some_iff h.distinct).2 mem)
          have counted := lightens_count removed.weighed fun s =>
            { s with evictions := s.evictions + 1 }
          refine ih _ counted.weighed policy (Nat.le_of_lt_succ (Nat.lt_of_lt_of_le ?_ few))
          exact List.length_filter_lt_length_iff_exists.2 ⟨_, mem, by simp⟩
    next fits => exact .inl (Bool.eq_false_iff.2 fits)

end Cache

end Quill

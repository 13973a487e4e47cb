import Quill.Proofs.Cache.Weight
import Quill.Proofs.Cache.Underway

/-!
# The cache keeps to its weight

Calls, ends of computations, cancellations and what removes values follow one another in any order,
and computations may even call for their own values. Throughout, the weight that is counted is that
of the stored values, it is as small as it has to be, and what is stored is not under way. Weights
are doubles, so this takes sums of stored weights that are not rounded, and limits that are not
below zero.

## Main definitions

* `Cache.Occurs` — a scene is reached by a history of such acts, the latest moment first.
* `Cache.Act.IsExact` — an act that rounds no weight and sets no limit below zero.
* `Cache.Laden` — the weight is counted, with the default policy, and what is under way weighs
  something.
* `Cache.Scene.Balanced` — the weight is counted, and stored values are not under way.
* `Cache.Weighs` — what an act does to the weight.
* `Cache.Accounted` — what holds after every history.

## Main statements

* `Cache.Act.balanced` — every act keeps the balance, and does something to the weight.
* `Cache.Occurs.accounted` — so every history does.
* `Cache.not_accounted` — a sum that is rounded, and a limit below zero.
-/

namespace Quill.Cache

variable {τ ω α : Type}

/-! ## Runs -/

section

variable [DecidableEq τ]

/-- What is stored weighs something, and an act comes in time. -/
def Act.Possible (s : Scene τ α Number) : Act τ α Number → Bool
  | .call _ weight _ _ => Number.zero.lt weight
  | a => a.Timely s

/-- Where a value is stored, neither its weight nor those of the values that are there are rounded
when they are added up. A limit is not below zero. -/
def Act.IsExact (s : Scene τ α Number) : Act τ α Number → Bool
  | .publish id _ => (s.yields? id).all fun f => Exact (weightsOf s.cache.entries ++ [f.weight])
  | .setMaxWeight maxWeight => Number.zero.AtMost maxWeight
  | _ => true

/-- The scene `s` is reached from an empty cache by a history, the latest moment first. -/
inductive Occurs (maxWeight : Number) : List (Moment τ α Number) → Scene τ α Number → Prop where
  | start : Occurs maxWeight [] { cache := { maxWeight } }
  | step {m : Moment τ α Number} {h : List (Moment τ α Number)}
      (before : Occurs maxWeight h m.before) (possible : m.act.Possible m.before) :
      Occurs maxWeight (m :: h) m.after

/-- Acts that are all possible when they are done make a history. -/
theorem occurs_play (maxWeight : Number) (acts : List (Act τ α Number))
    (possible : (play .default maxWeight acts).1.all fun m => m.act.Possible m.before) :
    Occurs maxWeight (play .default maxWeight acts).1 (play .default maxWeight acts).2 := by
  induction acts with
  | nil => exact .start
  | cons a earlier ih =>
    simp only [play, List.all_cons, Bool.and_eq_true] at possible ⊢
    exact .step (ih possible.2) possible.1

/-- In the moment a value is stored under the key. -/
def Moment.Fills (m : Moment τ α Number) (key : CacheKey) : Prop :=
  m.before.cache.has key = false ∧ m.after.cache.has key = true

def StoredLast (h : List (Moment τ α Number)) (key : CacheKey) : Prop :=
  ∃ later m earlier, h = later ++ m :: earlier ∧ m.Fills key ∧
    ∀ m' ∈ later, ∀ key', ¬ m'.Fills key'

end

/-! ## The balance -/

/-- A cache that counts the weight of its values, where what is computed will weigh something as
well, with a limit that is not below zero. -/
structure Laden (c : Cache τ ω α Number) : Prop where
  policy : c.policy = .default
  limit : Number.zero.AtMost c.maxWeight
  weighed : c.Weighed
  heavy : ∀ f ∈ c.flights, Number.zero.lt f.weight = true

section

variable {c c' : Cache τ ω α Number}

/-- Values go. -/
theorem Laden.lightens (h : c.Laden) (light : c.Lightens c') : c'.Laden :=
  ⟨light.policy.trans h.policy, light.maxWeight ▸ h.limit, light.weighed, light.flights ▸ h.heavy⟩

/-- Computations are abandoned or over. -/
theorem Laden.keeps (h : c.Laden) (kept : c.Keeps c') : c'.Laden where
  policy := kept.policy.trans h.policy
  limit := kept.maxWeight ▸ h.limit
  weighed := h.weighed.congr kept.entries kept.weight
  heavy := by
    intro g hg
    obtain ⟨f, hf, -, -, weight, -⟩ := kept.flights g hg
    exact weight ▸ h.heavy f hf

/-- The first part of a computation is over. -/
theorem Laden.register (h : c.Laden) (id : Nat) : (c.register id).1.Laden := by
  unfold Cache.register
  split
  next f found =>
    refine ⟨h.policy, h.limit, h.weighed.congr rfl rfl, ?_⟩
    simp only [modifyFlight, displace, List.map_map, List.forall_mem_map, Function.comp_apply]
    intro g hg
    have := h.heavy g hg
    grind
  next => exact h

/-- What is not too heavy fits. -/
theorem Laden.atMost (h : c.Laden) (fits : Weight.lt c.maxWeight c.weight = false) :
    c.weight.AtMost c.maxWeight := by
  refine ⟨fun nan => ?_, h.limit.2.1, fits⟩
  have finite := h.weighed.whole
  rw [nan] at finite
  cases finite

/-- A cache without values weighs nothing, which fits. -/
theorem Laden.atMost_of_empty (h : c.Laden) (empty : c.entries = []) :
    c.weight.AtMost c.maxWeight := by
  have none : c.weight.units = Number.zero.units := by
    rw [show c.weight.units = total c.entries from h.weighed.weight, empty]
    rfl
  exact h.limit.of_units_le h.weighed.whole rfl (Int.le_of_eq none)

end

/-- The weight of the stored values is counted, and no value is stored that is under way. -/
structure Scene.Balanced (s : Scene τ α Number) : Prop extends Disjoint s where
  laden : s.cache.Laden

/-- An empty cache counts nothing. -/
theorem Scene.Balanced.start {maxWeight : Number} (limit : Number.zero.AtMost maxWeight) :
    Balanced ({ cache := { maxWeight } } : Scene τ α Number) where
  toDisjoint := .start .default maxWeight
  laden := ⟨rfl, limit, ⟨.empty rfl rfl, by simp⟩, by simp⟩

/-! ## Acts -/

/-- What an act does to the weight: there is not more than before, or it fits, or a value is stored
and everything else has gone that had to. -/
inductive Weighs (c c' : Cache τ ω α Number) : Prop where
  | fewer (keys : (Dict.keys c'.entries).Sublist (Dict.keys c.entries))
      (weight : c'.weight.units ≤ c.weight.units) (maxWeight : c'.maxWeight = c.maxWeight)
  | limited (keys : (Dict.keys c'.entries).Sublist (Dict.keys c.entries))
      (fits : c'.weight.AtMost c'.maxWeight)
  | stored (key : CacheKey) (new : c.has key = false) (there : c'.has key = true)
      (others : ∀ k, c'.has k = true → k = key ∨ c.has k = true)
      (fits : c'.weight.AtMost c'.maxWeight ∨ Dict.keys c'.entries = [key])

/-- Nothing happens to the stored values. -/
theorem Weighs.same {c c' : Cache τ ω α Number} (entries : c'.entries = c.entries)
    (weight : c'.weight = c.weight) (maxWeight : c'.maxWeight = c.maxWeight) : c.Weighs c' :=
  .fewer (entries ▸ .refl _) (Int.le_of_eq (congrArg _ weight)) maxWeight

theorem Keeps.weighs {c c' : Cache τ ω α Number} (kept : c.Keeps c') : c.Weighs c' :=
  .same kept.entries kept.weight kept.maxWeight

theorem Lightens.weighs {c c' : Cache τ ω α Number} (light : c.Lightens c') : c.Weighs c' :=
  .fewer light.keys light.weight light.maxWeight

/-- A new limit is kept at once. -/
theorem setMaxWeight_fits {c : Cache τ ω α Number} (h : c.Laden) {maxWeight : Number}
    (limit : Number.zero.AtMost maxWeight) :
    (c.setMaxWeight maxWeight).1.Laden ∧ (c.setMaxWeight maxWeight).1.maxWeight = maxWeight ∧
      (c.setMaxWeight maxWeight).1.weight.AtMost maxWeight ∧
      (Dict.keys (c.setMaxWeight maxWeight).1.entries).Sublist (Dict.keys c.entries) := by
  have set : Laden { c with maxWeight } := ⟨h.policy, limit, h.weighed.congr rfl rfl, h.heavy⟩
  have light := lightens_prune set.weighed none
  have laden : (c.setMaxWeight maxWeight).1.Laden := set.lightens light
  have same : (c.setMaxWeight maxWeight).1.maxWeight = maxWeight := light.maxWeight
  have fits :
      (c.setMaxWeight maxWeight).1.weight.AtMost (c.setMaxWeight maxWeight).1.maxWeight := by
    obtain fits | none := prune_fits set.weighed h.policy none
    · exact laden.atMost fits
    · exact laden.atMost_of_empty (List.eq_nil_iff_forall_not_mem.2 fun e mem => by
        simpa using none e mem)
  rw [same] at fits
  exact ⟨laden, same, fits, light.keys⟩

section

variable [DecidableEq τ] {s : Scene τ α Number}

open Scene

/-- A call uses a value, joins a computation or starts one. -/
theorem call_laden (h : s.cache.Laden) (key : CacheKey) {weight : Number}
    (heavy : Number.zero.lt weight = true) (now : Int) (token : Option (Token τ)) :
    (Act.apply s (.call key weight now token)).1.cache.Laden ∧
      s.cache.Weighs (Act.apply s (.call key weight now token)).1.cache := by
  simp only [Act.apply]
  split
  next => exact ⟨h, h.weighed.lightens.weighs⟩
  next =>
    cases found : Dict.get? s.cache.entries key.place with
    | some e =>
      simp only [ask, found]
      let e' := { e with lastUsed := s.cache.generation + 1, hits := e.hits + 1 }
      have used := h.weighed.use found e' rfl (s.cache.generation + 1)
      have same := Dict.keys_put_of_has s.cache.entries e' (k := key.place)
          (by simp [Dict.has, found])
      exact ⟨⟨h.policy, h.limit, used.congr rfl rfl, h.heavy⟩,
        .fewer (same ▸ .refl _) (Int.le_refl _) rfl⟩
    | none =>
      cases meets : s.cache.running? key.place with
      | some f =>
        simp only [ask, found, meets]
        have counted := lightens_count h.weighed fun s => { s with coalesced := s.coalesced + 1 }
        have kept := keeps_wait
          (s.cache.count fun s => { s with coalesced := s.coalesced + 1 }) f.id token s.nextCall
        exact ⟨(h.lightens counted).keeps kept, .same rfl rfl rfl⟩
      | none =>
        simp only [ask, found, meets]
        refine ⟨⟨h.policy, h.limit, h.weighed.congr rfl rfl, ?_⟩, .same rfl rfl rfl⟩
        exact List.forall_mem_append.2 ⟨h.heavy, by simpa using heavy⟩

/-- The first part of a computation is over. -/
theorem pause_laden (h : s.Balanced) (begun : s.beginnings ≠ []) :
    (Act.apply s .pause).1.cache.Laden ∧ s.cache.Weighs (Act.apply s .pause).1.cache := by
  cases first : s.beginnings with
  | nil => exact absurd first begun
  | cons b rest =>
    have kept := keeps_wait (s.cache.register b.flight).1 b.flight b.token b.call
    have laden := (h.laden.register b.flight).keeps kept
    have joined : Disjoint { s with
        cache := ((s.cache.register b.flight).1.wait b.flight b.token b.call).1
        beginnings := rest } :=
      (h.register first).settle kept.settles rfl
    obtain ⟨entries, weight, maxWeight⟩ : (s.cache.register b.flight).1.entries = s.cache.entries ∧
        (s.cache.register b.flight).1.weight = s.cache.weight ∧
        (s.cache.register b.flight).1.maxWeight = s.cache.maxWeight := by
      unfold Cache.register
      split <;> exact ⟨rfl, rfl, rfl⟩
    simp only [Act.apply, first]
    split
    next => exact ⟨laden, .same entries weight maxWeight⟩
    next token _ =>
      split
      next => exact ⟨laden, .same entries weight maxWeight⟩
      next reason _ =>
        have left := keeps_cancel joined token reason
        exact ⟨laden.keeps left, .same (left.entries.trans entries) (left.weight.trans weight)
          (left.maxWeight.trans maxWeight)⟩

omit [DecidableEq τ] in
/-- A value is stored, and others go. -/
theorem store_laden {c : Cache τ Nat α Number} (h : c.Laden) {f : Flight α Number}
    (mem : f ∈ c.flights) (missing : c.has f.key = false) (value : α) (cost : Int)
    (exact : Exact (weightsOf c.entries ++ [f.weight])) {flights : List (Flight α Number)}
    (part : flights ⊆ c.flights) :
    let c' := Cache.prune { c with
      flights
      generation := c.generation + 1
      entries := Dict.put c.entries f.key ⟨value, f.kind, cost, f.weight, c.generation + 1, 0⟩
      weight := Weight.add c.weight f.weight } (some f.key)
    c'.1.Laden ∧ c.Weighs c'.1 := by
  intro c'
  let e : CacheEntry α Number := ⟨value, f.kind, cost, f.weight, c.generation + 1, 0⟩
  have finite : f.weight.isFinite := exact.1 f.weight (by simp)
  have positive : 0 < f.weight.units := (Number.lt_iff rfl finite).1 (h.heavy f mem)
  have put := h.weighed.put (e := e) missing positive exact (c.generation + 1)
  have stored : Weighed { c with
      flights
      generation := c.generation + 1
      entries := Dict.put c.entries f.key e
      weight := Weight.add c.weight f.weight } := put.congr rfl rfl
  have light := lightens_prune stored (some f.key)
  have there := has_prune stored f.key (by simp [Cache.has, Dict.has])
  have laden : c'.1.Laden :=
    ⟨light.policy.trans h.policy, light.maxWeight ▸ h.limit, light.weighed,
      light.flights ▸ fun g hg => h.heavy g (part hg)⟩
  refine ⟨laden, .stored f.key missing there (fun k there => ?_) ?_⟩
  · have before := light.has there
    by_cases same : k = f.key
    · exact .inl same
    · exact .inr (by simpa [Cache.has, Dict.has, Dict.get?_put_of_ne _ _ same] using before)
  · obtain fits | only := prune_fits stored h.policy (some f.key)
    · exact .inl (laden.atMost fits)
    · exact .inr (light.weighed.keys_eq there fun e mem => Option.some.inj (only e mem))

/-- An outcome becomes known. -/
theorem publish_laden (h : s.Balanced) {f : Flight α Number} (mem : f ∈ s.cache.flights)
    (ended : f.outcome.isSome) (now : Int) (exact : (Act.publish f.id now).IsExact s) :
    (Act.apply s (.publish f.id now)).1.cache.Laden ∧
      s.cache.Weighs (Act.apply s (.publish f.id now)).1.cache := by
  have found := flight?_of_mem h.distinct mem
  obtain ⟨r, ended⟩ := Option.isSome_iff_exists.1 ended
  have laden := h.laden
  have gone : Laden { s.cache with flights := s.cache.flights.filter (·.id != f.id) } :=
    ⟨laden.policy, laden.limit, laden.weighed.congr rfl rfl,
      fun g hg => laden.heavy g (List.mem_filter.1 hg).1⟩
  simp only [Act.apply, found, Option.bind_some, ended, publish]
  cases r with
  | error e =>
    have counted := lightens_count gone.weighed fun s => { s with failures := s.failures + 1 }
    cases e with
    | cancelled => exact ⟨gone, .same rfl rfl rfl⟩
    | _ => exact ⟨gone.lightens counted, .same rfl rfl rfl⟩
  | ok value =>
    dsimp only
    split
    next => exact ⟨gone, .same rfl rfl rfl⟩
    next going =>
      have running : f.state = .running := by simpa using going
      have missing := has_eq_false_iff_peek?.2 (h.missing f mem (.inr running))
      have yields := yields?_eq_some_iff.2 ⟨found, running, value, ended⟩
      simp only [Act.IsExact, yields, Option.all_some, decide_eq_true_eq] at exact
      exact store_laden laden mem missing value (max 0 (now - f.startedAt)) exact
        List.filter_sublist.subset

/-- Every act that is possible keeps count of the weight, and does something to it. -/
theorem Act.laden (h : s.Balanced) (a : Act τ α Number) (possible : a.Possible s)
    (exact : a.IsExact s) : (a.apply s).1.cache.Laden ∧ s.cache.Weighs (a.apply s).1.cache := by
  have weighed := h.laden.weighed
  have light {cache : Cache τ Nat α Number} (light : s.cache.Lightens cache) :
      cache.Laden ∧ s.cache.Weighs cache := ⟨h.laden.lightens light, light.weighs⟩
  cases a with
  | call key weight now token => exact call_laden h.laden key possible now token
  | pause => exact pause_laden h (by simpa [Act.Possible, Act.Timely, Act.Allowed] using possible)
  | settle id r =>
    obtain ⟨f, found, facts⟩ := (Option.any_eq_true _ _).1 possible
    obtain ⟨mem, rfl⟩ := mem_of_flight? found
    simp only [Bool.and_eq_true, bne_iff_ne, ne_eq] at facts
    have kept := keeps_modifyFlight s.cache f.id (u := fun f => { f with outcome := some r })
      (fun _ => ⟨rfl, rfl, rfl⟩) (fun _ _ _ => .inl rfl)
      fun g hg same state => absurd (h.eq_of_id_eq hg mem same ▸ state) facts.1
    exact ⟨h.laden.keeps kept, kept.weighs⟩
  | publish id now =>
    obtain ⟨f, found, facts⟩ := (Option.any_eq_true _ _).1 possible
    obtain ⟨mem, rfl⟩ := mem_of_flight? found
    exact publish_laden h mem (Bool.and_eq_true_iff.1 facts).1 now exact
  | deliver waiter =>
    simp only [Act.apply]
    split
    next => exact light weighed.lightens
    next =>
      unfold Cache.deliver
      split
      next w _ =>
        have kept := keeps_dropWaiter s.cache w
        exact ⟨h.laden.keeps kept, kept.weighs⟩
      next => exact light weighed.lightens
  | fire token reason =>
    have fired : Disjoint { s with fired := Dict.put s.fired token reason } :=
      h.settle (Trims.refl _).settles rfl
    have left := keeps_cancel fired (.caller token) reason
    exact ⟨h.laden.keeps left, left.weighs⟩
  | clear => exact light (lightens_clear weighed)
  | invalidateKind kind => exact light (lightens_invalidateKind weighed kind)
  | setMaxWeight maxWeight =>
    obtain ⟨laden, limit, fits, keys⟩ := setMaxWeight_fits h.laden (of_decide_eq_true exact)
    exact ⟨laden, .limited keys (limit.symm ▸ fits)⟩

/-- What is possible comes in time. -/
theorem Act.timely {a : Act τ α Number} (possible : a.Possible s) : a.Timely s := by
  cases a <;> first | rfl | exact possible

/-- Every act that is possible keeps the balance, and does something to the weight. -/
theorem Act.balanced (h : s.Balanced) (a : Act τ α Number) (possible : a.Possible s)
    (exact : a.IsExact s) : (a.apply s).1.Balanced ∧ s.cache.Weighs (a.apply s).1.cache :=
  have ⟨laden, weighs⟩ := Act.laden h a possible exact
  ⟨⟨Act.disjoint h.toDisjoint a (Act.timely possible), laden⟩, weighs⟩

end

/-! ## Histories -/

variable [DecidableEq τ] {maxWeight : Number} {h : List (Moment τ α Number)} {s : Scene τ α Number}

/-- What holds of the weight after every history. -/
structure Accounted (h : List (Moment τ α Number)) (s : Scene τ α Number) : Prop where
  /-- The weight that is counted is that of the stored values, of which there is one for a key. -/
  weight : s.cache.weight.isFinite ∧ s.cache.weight.units = total s.cache.entries ∧
    (Dict.keys s.cache.entries).Nodup
  /-- What is stored is not under way. -/
  apart : ∀ key, ¬ (s.cache.has key = true ∧ s.cache.isInFlight key = true)
  /-- The weight fits, or nothing is stored but the value that was stored last. -/
  bounded : s.cache.weight.AtMost s.cache.maxWeight ∨
    ∃ key, Dict.keys s.cache.entries = [key] ∧ StoredLast h key
  /-- A new limit is kept at once. -/
  limited : ∀ m earlier maxWeight, h = m :: earlier → m.act = .setMaxWeight maxWeight →
    s.cache.maxWeight = maxWeight ∧ s.cache.weight.AtMost maxWeight

/-- A moment in which nothing is stored leaves the value stored last. -/
theorem StoredLast.later {m : Moment τ α Number} {key : CacheKey} (last : StoredLast h key)
    (none : ∀ key, ¬ m.Fills key) : StoredLast (m :: h) key := by
  obtain ⟨later, m', earlier, rfl, fills, after⟩ := last
  exact ⟨m :: later, m', earlier, rfl, fills, List.forall_mem_cons.2 ⟨none, after⟩⟩

theorem Occurs.balanced (occurs : Occurs maxWeight h s) (limit : Number.zero.AtMost maxWeight)
    (exact : h.all fun m => m.act.IsExact m.before) : s.Balanced := by
  induction occurs with
  | start => exact .start limit
  | step _ possible ih =>
    obtain ⟨now, exact⟩ := Bool.and_eq_true_iff.1 exact
    exact (Act.balanced (ih exact) _ possible now).1

/-- The weight fits, or nothing is stored but the value that was stored last. -/
theorem Occurs.bounded (occurs : Occurs maxWeight h s) (limit : Number.zero.AtMost maxWeight)
    (exact : h.all fun m => m.act.IsExact m.before) :
    s.cache.weight.AtMost s.cache.maxWeight ∨
      ∃ key, Dict.keys s.cache.entries = [key] ∧ StoredLast h key := by
  induction occurs with
  | start => exact .inl limit
  | @step m h before possible ih =>
    obtain ⟨now, exact⟩ := Bool.and_eq_true_iff.1 exact
    have balanced := before.balanced limit exact
    obtain ⟨after, weighs⟩ := Act.balanced balanced m.act possible now
    have laden : m.after.cache.Laden := after.laden
    -- where no key is new, nothing was stored
    have same (keys : (Dict.keys m.after.cache.entries).Sublist
        (Dict.keys m.before.cache.entries)) :
        ∀ key, ¬ m.Fills key := by
      rintro key ⟨missing, there⟩
      exact Dict.has_eq_false_iff.1 missing (keys.subset (Dict.mem_keys_iff.2 there))
    cases weighs with
    | fewer keys weight maxWeight =>
      obtain fits | ⟨key, only, last⟩ := ih exact
      · rw [← show m.after.cache.maxWeight = _ from maxWeight] at fits
        exact .inl (fits.of_units_le laden.weighed.whole balanced.laden.weighed.whole weight)
      · obtain none | one := List.sublist_singleton.1 (only ▸ keys)
        · exact .inl (laden.atMost_of_empty (List.map_eq_nil_iff.1 none))
        · exact .inr ⟨key, one, last.later (same keys)⟩
    | limited keys fits => exact .inl fits
    | stored key new there others fits =>
      exact fits.imp_right fun only => ⟨key, only, [], m, h, rfl, ⟨new, there⟩, by simp⟩

/-- However calls, ends of computations, cancellations and what removes values follow one another,
the cache keeps to its weight: as long as no sum of weights is rounded and no limit is below
zero. -/
theorem Occurs.accounted (occurs : Occurs maxWeight h s) (limit : Number.zero.AtMost maxWeight)
    (exact : h.all fun m => m.act.IsExact m.before) : Accounted h s := by
  have balanced := occurs.balanced limit exact
  have weighed := balanced.laden.weighed
  constructor
  case weight => exact ⟨weighed.whole, weighed.weight, weighed.distinct⟩
  case apart =>
    rintro key ⟨there, going⟩
    obtain ⟨f, found⟩ := Option.isSome_iff_exists.1 going
    have facts := List.find?_some found
    simp only [Bool.and_eq_true, decide_eq_true_eq, beq_iff_eq] at facts
    have missing := has_eq_false_iff_peek?.2
      (balanced.missing f (List.mem_of_find?_eq_some found) (.inr facts.2))
    rw [facts.1, there] at missing
    cases missing
  case bounded => exact occurs.bounded limit exact
  case limited =>
    rintro ⟨before, act⟩ earlier maxWeight rfl rfl
    obtain ⟨now, exact⟩ := Bool.and_eq_true_iff.1 exact
    cases occurs with
    | step occurs _ =>
      obtain ⟨-, limit, fits, -⟩ :=
        setMaxWeight_fits (occurs.balanced limit exact).laden (of_decide_eq_true now)
      exact ⟨limit, fits⟩

/-- A computation calls for its own value, which is computed twice and stored once; then a heavier
value takes its place, until the limit is lowered. The latest act comes first. -/
def recalling : List (Act Nat Nat Number) :=
  [.setMaxWeight (.ofNat 2), .publish 2 9, .settle 2 (.ok 8), .pause,
    .call ⟨[1], []⟩ (.ofNat 3) 5 none, .publish 1 5, .publish 0 5, .settle 0 (.ok 7),
    .settle 1 (.ok 7), .pause, .pause, .call ⟨[], []⟩ (.ofNat 2) 0 none,
    .call ⟨[], []⟩ (.ofNat 2) 0 none]

theorem accounted_recalling :
    Number.zero.AtMost (.ofNat 2) ∧
      ((play .default (.ofNat 2) recalling).1.all fun m => m.act.IsExact m.before) ∧
      Accounted (play .default (.ofNat 2) recalling).1 (play .default (.ofNat 2) recalling).2 ∧
      (play .default (.ofNat 2) recalling).1.map
          (fun m => (m.before.cache.weight, Dict.keys m.before.cache.entries)) =
        [(.ofNat 3, [⟨[1], []⟩]), (.ofNat 2, [⟨[], []⟩]), (.ofNat 2, [⟨[], []⟩]),
          (.ofNat 2, [⟨[], []⟩]), (.ofNat 2, [⟨[], []⟩]), (.ofNat 2, [⟨[], []⟩]), (.zero, []),
          (.zero, []), (.zero, []), (.zero, []), (.zero, []), (.zero, []), (.zero, [])] := by
  have occurs := occurs_play (.ofNat 2) recalling (by decide +kernel)
  exact ⟨by decide +kernel, by decide +kernel,
    occurs.accounted (by decide +kernel) (by decide +kernel), by decide +kernel⟩

/-- Values that weigh a tenth and two tenths come and go. -/
def tenths : List (Act Nat Nat Number) :=
  [.setMaxWeight .zero, .publish 1 0, .settle 1 (.ok 8), .pause,
    .call ⟨[1], []⟩ (.ofDecimal false 2 (-1)) 0 none, .publish 0 0, .settle 0 (.ok 7), .pause,
    .call ⟨[], []⟩ (.ofDecimal false 1 (-1)) 0 none]

/-- A limit below zero. -/
def negative : List (Act Nat Nat Number) := [.setMaxWeight (.ofInt (-1))]

/-- A tenth and two tenths are rounded when they are added up, so that some weight is counted when
both values are gone; and a cache without values exceeds a limit below zero. -/
theorem not_accounted :
    ((play .default (.ofNat 10) tenths).1.all fun m => m.act.Possible m.before) ∧
      ¬ Accounted (play .default (.ofNat 10) tenths).1 (play .default (.ofNat 10) tenths).2 ∧
      ((play .default (.ofNat 10) negative).1.all fun m => m.act.Possible m.before) ∧
      ¬ Accounted (play .default (.ofNat 10) negative).1
        (play .default (.ofNat 10) negative).2 := by
  refine ⟨by decide +kernel, fun accounted => ?_, by decide +kernel, fun accounted => ?_⟩
  · have sum := accounted.weight.2.1
    revert sum
    decide +kernel
  · have fits := (accounted.limited _ [] (.ofInt (-1)) rfl rfl).2
    revert fits
    decide +kernel

end Quill.Cache

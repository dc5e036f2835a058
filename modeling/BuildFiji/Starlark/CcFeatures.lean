import BuildFiji.Lib.Pruning
import BuildFiji.Lib.Worklist
import Mathlib

/-!
# C++ features

Which features and action configs of a toolchain a request enables: those it names, with all they
imply, less what is not asked for by anything left, or lacks what it implies or requires.
-/

set_option autoImplicit false
set_option linter.all false

namespace BuildFiji.CcFeatures
open Relation Worklist Pruning

structure Feature where
  name : String
  implies : List String
  requires : List (List String)
  provides : List String

structure ActionConfig where
  actionName : String
  implies : List String

structure Config where
  features : List Feature
  actionConfigs : List ActionConfig

inductive Item where
  | feature (f : Feature)
  | actionConfig (a : ActionConfig)

namespace Item

def name : Item → String
  | feature f => f.name
  | actionConfig a => a.actionName

def implies : Item → List String
  | feature f => f.implies
  | actionConfig a => a.implies

/-- An action config has none. -/
def requires : Item → List (List String)
  | feature f => f.requires
  | actionConfig _ => []

def provides : Item → List String
  | feature f => f.provides
  | actionConfig _ => []

end Item

/-- In the order in which they are defined. -/
def Config.items (config : Config) : List Item := config.features.map .feature ++ config.actionConfigs.map .actionConfig

structure Model where
  selectables : String → Option Item
  order : List String
  impliedBy : String → List String

namespace Model

def implies (model : Model) (name : String) : List String := ((model.selectables name).map Item.implies).getD []

def provides (model : Model) (name : String) : List String := ((model.selectables name).map Item.provides).getD []

end Model

/-- Of several definitions of a name the last. -/
def Config.selectables (config : Config) (name : String) : Option Item :=
  config.items.reverse.find? fun item => item.name = name

/-- Each name with one that it implies. -/
def Config.edges (config : Config) : List (String × String) :=
  config.items.flatMap fun item =>
    (((config.selectables item.name).map Item.implies).getD []).map fun implied => (item.name,implied)

def byName (config : Config) : Except String Model :=
  match config.edges.find? fun e => (config.selectables e.2).isNone with
  | some (name,implied) => .error <| "Invalid toolchain configuration: Feature or action config '" ++ implied ++
      "', implied by '" ++ name ++ "', is not defined"
  | none => .ok {
      selectables := config.selectables
      order := config.items.map Item.name
      impliedBy := fun implied => (config.edges.filter fun e => e.2 = implied).map Prod.fst }

def requirementsMet (item : Item) (enabled : List String) : Bool :=
  item.requires.isEmpty || item.requires.any fun featureSet => featureSet.all fun name => name ∈ enabled

/-- `_MAX` -/
def rounds : ℕ := 1000000

section Select

variable (model : Model) (requested : List String)

/-- The end of the stack is looked at first. -/
def close : ℕ → List String → List String → List String
  | 0, _, enabled => enabled
  | _+1, [], enabled => enabled
  | fuel+1, current::stack, enabled =>
    if current ∈ enabled then close fuel stack enabled
    else close fuel ((model.implies current).reverse ++ stack) (enabled ++ [current])

def closure : List String :=
  requested.foldl (fun enabled name => if (model.selectables name).isNone then enabled else close model rounds [name] enabled)
    []

/-- What an enabled name is when the others are. -/
def stays (enabled : List String) (name : String) : Bool :=
  (requested.contains name || (model.impliedBy name).any fun implier => implier ∈ enabled) &&
    ((model.selectables name).all fun item => requirementsMet item enabled) &&
    (model.implies name).all fun implied => implied ∈ enabled

def enabledNames : List String := prune (stays model requested) (model.order.length + 1) (closure model requested)

/-- Each symbol that an enabled feature provides, with the feature. -/
def provided (enabled : List String) : List (String × String) :=
  model.order.flatMap fun name =>
    if name ∈ enabled then (model.provides name).map fun symbol => (symbol,name) else []

def providers (enabled : List String) (symbol : String) : List String :=
  ((provided model enabled).filter fun e => e.1 = symbol).map Prod.snd

def select : Except String (List String) :=
  let enabled := enabledNames model requested
  match (provided model enabled).find? fun e => 1 < (providers model enabled e.1).length with
  | some e => .error <| "Symbol " ++ e.1 ++ " is provided by all of the following features: " ++
      " ".intercalate (providers model enabled e.1)
  | none => .ok enabled

end Select

section Meaning

variable (config : Config) (requested : List String)

def Implies (a b : String) : Prop := ∃ item ∈ config.items, item.name = a ∧ b ∈ item.implies

def Defined (name : String) : Prop := ∃ item ∈ config.items, item.name = name

/-- What the requested names that are defined come to with all they imply. -/
def Closure : Set String := {name | ∃ start ∈ requested, Defined config start ∧ ReflTransGen (Implies config) start name}

/-- It is asked for, and has what it implies and one of the sets it requires. -/
def Stays (s : Set String) (name : String) : Prop :=
  (name ∈ requested ∨ ∃ implier ∈ s, Implies config implier name) ∧
    (∀ implied, Implies config name implied → implied ∈ s) ∧
    ∀ item ∈ config.items, item.name = name → item.requires ≠ [] →
      ∃ featureSet ∈ item.requires, ∀ required ∈ featureSet, required ∈ s

def Choices : Set (Set String) := {s | s ⊆ Closure config requested ∧ Kept (Stays config requested) s}

/-- Two features provide the same symbol. -/
def Conflict (s : Set String) : Prop :=
  ∃ f ∈ config.features, ∃ g ∈ config.features, f.name ∈ s ∧ g.name ∈ s ∧ f.name ≠ g.name ∧
    ∃ symbol, symbol ∈ f.provides ∧ symbol ∈ g.provides

end Meaning

section Names

variable {config : Config} {model : Model}

theorem selectables_some (hnames : (config.items.map Item.name).Nodup) {name : String} {item : Item} :
    config.selectables name = some item ↔ item ∈ config.items ∧ item.name = name := by
  constructor
  · intro h
    exact ⟨List.mem_reverse.mp (List.mem_of_find?_eq_some h),by simpa using List.find?_some h⟩
  · rintro ⟨hmem,rfl⟩
    cases h : config.selectables item.name with
    | none => exact absurd (List.find?_eq_none.mp h item (List.mem_reverse.mpr hmem)) (by simp)
    | some other =>
      have hother : other ∈ config.items := List.mem_reverse.mp (List.mem_of_find?_eq_some h)
      have hname : other.name = item.name := by simpa using List.find?_some h
      rw [List.inj_on_of_nodup_map hnames hother hmem hname]

theorem mem_implies (hnames : (config.items.map Item.name).Nodup) {a b : String} :
    b ∈ ((config.selectables a).map Item.implies).getD [] ↔ Implies config a b := by
  cases h : config.selectables a with
  | none =>
    refine iff_of_false List.not_mem_nil ?_
    rintro ⟨item,hitem,hname,_⟩
    rw [(selectables_some hnames).mpr ⟨hitem,hname⟩] at h
    cases h
  | some item =>
    rw [Option.map_some, Option.getD_some]
    constructor
    · intro hb
      obtain ⟨hitem,hname⟩ := (selectables_some hnames).mp h
      exact ⟨item,hitem,hname,hb⟩
    · rintro ⟨other,hother,hname,hb⟩
      rw [(selectables_some hnames).mpr ⟨hother,hname⟩] at h
      cases h
      exact hb

theorem selectables_isSome (hnames : (config.items.map Item.name).Nodup) {name : String} :
    (config.selectables name).isSome ↔ Defined config name := by
  rw [Option.isSome_iff_exists]
  exact exists_congr fun item => selectables_some hnames

theorem mem_edges (hnames : (config.items.map Item.name).Nodup) {a b : String} :
    (a,b) ∈ config.edges ↔ Implies config a b := by
  rw [Config.edges, List.mem_flatMap]
  constructor
  · rintro ⟨item,-,h⟩
    obtain ⟨implied,himplied,heq⟩ := List.mem_map.mp h
    cases heq
    exact (mem_implies hnames).mp himplied
  · intro h
    obtain ⟨item,hitem,rfl,-⟩ := id h
    exact ⟨item,hitem,List.mem_map.mpr ⟨b,(mem_implies hnames).mpr h,rfl⟩⟩

/-- A config has a model exactly when all that is implied is defined. -/
theorem byName_ok_iff (hnames : (config.items.map Item.name).Nodup) : (∃ model, byName config = .ok model) ↔
    ∀ a b, Implies config a b → Defined config b := by
  unfold byName
  split
  · next e h =>
    obtain ⟨name,implied⟩ := e
    refine iff_of_false (fun h => by obtain ⟨_,h⟩ := h; cases h) fun hall => ?_
    have hnone := List.find?_some h
    have hsome := (selectables_isSome hnames).mpr (hall _ _ ((mem_edges hnames).mp (List.mem_of_find?_eq_some h)))
    rw [Option.isNone_iff_eq_none] at hnone
    dsimp only at hnone
    rw [hnone] at hsome
    cases hsome
  · next h =>
    refine iff_of_true ⟨_,rfl⟩ fun a b hab => (selectables_isSome hnames).mp ?_
    have hnone := List.find?_eq_none.mp h (a,b) ((mem_edges hnames).mpr hab)
    simpa [Option.isSome_iff_ne_none] using hnone

theorem byName_eq (h : byName config = .ok model) : model = {
    selectables := config.selectables
    order := config.items.map Item.name
    impliedBy := fun implied => (config.edges.filter fun e => e.2 = implied).map Prod.fst } := by
  unfold byName at h
  split at h
  · cases h
  · exact (Except.ok.inj h).symm

end Names

section Closing

variable {config : Config} {model : Model} {requested : List String}

theorem close_of_walk {fuel : ℕ} {stack enabled out : List String}
    (h : walk model.implies (fuel+1) stack enabled = some out) : close model fuel stack enabled = out := by
  induction fuel generalizing stack enabled with
  | zero =>
    cases stack with
    | nil => exact Option.some.inj h
    | cons a stack =>
      rw [walk] at h
      split at h <;> cases h
  | succ fuel ih =>
    cases stack with
    | nil => exact Option.some.inj h
    | cons a stack =>
      rw [walk] at h
      rw [close]
      split at h
      · next ha =>
        rw [if_pos ha]
        exact ih h
      · next ha =>
        rw [if_neg ha]
        exact ih h

theorem close_nodup {fuel : ℕ} {stack enabled : List String} (h : enabled.Nodup) :
    (close model fuel stack enabled).Nodup := by
  induction fuel generalizing stack enabled with
  | zero => exact h
  | succ fuel ih =>
    cases stack with
    | nil => exact h
    | cons a stack =>
      rw [close]
      split
      · exact ih h
      · next ha => exact ih (h.append (List.nodup_singleton a) (by simpa using ha))

theorem pendingEdges_le (next : String → List String) (nodes visited : List String) :
    pendingEdges next nodes visited ≤ (nodes.map fun a => (next a).length).sum :=
  (List.filter_sublist.map _).sum_le_sum fun _ _ => Nat.zero_le _

/-- The closure of some names, and then of one more. -/
theorem close_stacked {starts enabled : List String} {name : String} (hsize : (model.order.map fun a =>
      (model.implies a).length).sum < rounds) (horder : ∀ a, model.implies a ≠ [] → a ∈ model.order)
    (h : Stacked model.implies starts enabled []) :
    Stacked model.implies (starts ++ [name]) (close model rounds [name] enabled) [] := by
  have hle := pendingEdges_le model.implies model.order enabled
  have hends : ∃ out, walk model.implies (rounds+1) [name] enabled = some out :=
    walk_ends horder (by rw [List.length_singleton]; omega)
  obtain ⟨out,hwalk⟩ := hends
  rw [close_of_walk hwalk]
  refine walk_stacked ⟨fun s hs => ?_,fun a ha => ?_,fun a ha b hb => ?_⟩ hwalk
  · rcases List.mem_append.mp hs with hs|hs
    · exact .inl ((h.starts_mem s hs).resolve_right List.not_mem_nil)
    · exact .inr hs
  · rcases ha with ha|ha
    · obtain ⟨s,hs,hreach⟩ := h.reached a (.inl ha)
      exact ⟨s,List.mem_append_left _ hs,hreach⟩
    · exact ⟨a,List.mem_append_right _ ha,.refl⟩
  · exact .inl ((h.closed a ha b hb).resolve_right List.not_mem_nil)

variable (config requested) in
/-- All that a request leads to is enabled first, each name once. -/
theorem closure_eq (hnames : (config.items.map Item.name).Nodup) (hmodel : byName config = .ok model)
    (hsize : (config.items.flatMap Item.implies).length < rounds) :
    (closure model requested).Nodup ∧ {name | name ∈ closure model requested} = Closure config requested := by
  have hall := (byName_ok_iff hnames).mp ⟨model,hmodel⟩
  obtain rfl := byName_eq hmodel
  generalize hm : Model.mk _ _ _ = model
  have hselectables : model.selectables = config.selectables := hm ▸ rfl
  have hedge : ∀ a b, Step model.implies a b ↔ Implies config a b := fun a b => by
    rw [Step, Model.implies, hselectables]
    exact mem_implies hnames
  have horder : ∀ a, model.implies a ≠ [] → a ∈ model.order := by
    intro a ha
    obtain ⟨b,hb⟩ := List.exists_mem_of_ne_nil _ ha
    obtain ⟨item,hitem,hname,-⟩ := (hedge a b).mp hb
    rw [← hm]
    exact List.mem_map.mpr ⟨item,hitem,hname⟩
  have hsum : (model.order.map fun a => (model.implies a).length).sum = (config.items.flatMap Item.implies).length := by
    rw [← hm, List.length_flatMap, List.map_map]
    refine congrArg List.sum (List.map_congr_left fun item hitem => ?_)
    rw [Function.comp_apply, Model.implies]
    dsimp only
    rw [(selectables_some hnames).mpr ⟨hitem,rfl⟩]
    rfl
  have hfold : ∀ (names : List String) starts enabled, enabled.Nodup → Stacked model.implies starts enabled [] →
      (names.foldl (fun enabled name => if (model.selectables name).isNone then enabled
        else close model rounds [name] enabled) enabled).Nodup ∧
      Stacked model.implies (starts ++ names.filter fun name => (model.selectables name).isSome)
        (names.foldl (fun enabled name => if (model.selectables name).isNone then enabled
          else close model rounds [name] enabled) enabled) [] := by
    intro names
    induction names with
    | nil => exact fun starts enabled hnodup h => ⟨hnodup,by rwa [List.filter_nil, List.append_nil]⟩
    | cons name names ih =>
      intro starts enabled hnodup h
      rw [List.foldl_cons]
      by_cases hname : (model.selectables name).isNone = true
      · rw [if_pos hname, List.filter_cons_of_neg (by simpa using hname)]
        exact ih starts enabled hnodup h
      · rw [if_neg hname, List.filter_cons_of_pos (by simpa [Option.isSome_iff_ne_none] using hname)]
        have hrest := ih (starts ++ [name]) _ (close_nodup hnodup) (close_stacked (hsum ▸ hsize) horder h)
        rwa [List.append_assoc] at hrest
  obtain ⟨hnodup,hstacked⟩ := hfold requested [] [] List.nodup_nil Stacked.initial
  refine ⟨hnodup,Set.ext fun name => ?_⟩
  have hreach : ∀ s, ReflTransGen (Step model.implies) s name ↔ ReflTransGen (Implies config) s name := fun s => by
    have hrel : Step model.implies = Implies config := funext fun a => funext fun b => propext (hedge a b)
    rw [hrel]
  have hstart : ∀ s, (s ∈ [] ++ requested.filter fun name => (model.selectables name).isSome) ↔
      s ∈ requested ∧ Defined config s := fun s => by
    rw [List.nil_append, List.mem_filter, hselectables, selectables_isSome hnames]
  refine (hstacked.mem_iff name).trans (exists_congr fun s => ?_)
  rw [hstart, hreach, and_assoc]

end Closing

section Enabled

variable {config : Config} {model : Model} {requested : List String}

theorem Stays.mono {s t : Set String} (hst : s ⊆ t) {name : String} (h : Stays config requested s name) :
    Stays config requested t name := by
  obtain ⟨hwanted,himplied,hrequired⟩ := h
  refine ⟨?_,fun implied h => hst (himplied implied h),fun item hitem hname hne => ?_⟩
  · exact hwanted.imp_right fun ⟨implier,hmem,h⟩ => ⟨implier,hst hmem,h⟩
  · obtain ⟨featureSet,hset,hall⟩ := hrequired item hitem hname hne
    exact ⟨featureSet,hset,fun required h => hst (hall required h)⟩

theorem requirementsMet_iff {item : Item} {enabled : List String} : requirementsMet item enabled = true ↔
    (item.requires ≠ [] → ∃ featureSet ∈ item.requires, ∀ required ∈ featureSet, required ∈ enabled) := by
  rw [requirementsMet, Bool.or_eq_true, List.isEmpty_iff, List.any_eq_true, ne_eq, ← or_iff_not_imp_left]
  refine or_congr_right (exists_congr fun featureSet => and_congr_right fun _ => ?_)
  simp only [List.all_eq_true, decide_eq_true_eq]

theorem stays_iff (hnames : (config.items.map Item.name).Nodup) (hmodel : byName config = .ok model)
    (enabled : List String) (name : String) : stays model requested enabled name = true ↔
      Stays config requested {b | b ∈ enabled} name := by
  obtain rfl := byName_eq hmodel
  rw [stays, Bool.and_eq_true, Bool.and_eq_true, Bool.or_eq_true, and_assoc, Stays]
  refine and_congr (or_congr ?_ ?_) (and_comm.trans (and_congr ?_ ?_))
  · exact List.contains_iff_mem
  · rw [List.any_eq_true]
    refine exists_congr fun implier => ?_
    rw [List.mem_map, decide_eq_true_iff, and_comm]
    refine and_congr_right fun _ => ?_
    rw [← mem_edges hnames]
    constructor
    · rintro ⟨⟨a,b⟩,he,rfl⟩
      rw [List.mem_filter, decide_eq_true_iff] at he
      obtain ⟨he,rfl⟩ := he
      exact he
    · exact fun he => ⟨_,List.mem_filter.mpr ⟨he,decide_eq_true rfl⟩,rfl⟩
  · rw [List.all_eq_true]
    refine forall_congr' fun implied => imp_congr (mem_implies hnames) decide_eq_true_iff
  · rw [Option.all_eq_true]
    constructor
    · intro h item hitem hname
      exact requirementsMet_iff.mp (h item ((selectables_some hnames).mpr ⟨hitem,hname⟩))
    · intro h item hitem
      obtain ⟨hitem,hname⟩ := (selectables_some hnames).mp hitem
      exact requirementsMet_iff.mpr (h item hitem hname)

theorem Implies.defined {a b : String} (hmodel : byName config = .ok model)
    (hnames : (config.items.map Item.name).Nodup) (h : ReflTransGen (Implies config) a b) (ha : Defined config a) :
    Defined config b := by
  cases h with
  | refl => exact ha
  | tail _ h => exact (byName_ok_iff hnames).mp ⟨model,hmodel⟩ _ _ h

/-- What is left enabled is the largest consistent choice. -/
theorem enabledNames_isGreatest (hnames : (config.items.map Item.name).Nodup) (hmodel : byName config = .ok model)
    (hsize : (config.items.flatMap Item.implies).length < rounds) :
    IsGreatest (Choices config requested) {name | name ∈ enabledNames model requested} := by
  obtain ⟨hnodup,hclosure⟩ := closure_eq config requested hnames hmodel hsize
  have hlength : (closure model requested).length ≤ model.order.length := by
    refine (hnodup.subperm fun name hname => ?_).length_le
    have hmem : name ∈ Closure config requested := hclosure ▸ hname
    obtain ⟨start,-,hdefined,hreach⟩ := hmem
    obtain ⟨item,hitem,rfl⟩ := Implies.defined hmodel hnames hreach hdefined
    rw [byName_eq hmodel]
    exact List.mem_map_of_mem hitem
  have hmono : ∀ s t : Set String, s ⊆ t → ∀ a, Stays config requested s a → Stays config requested t a :=
    fun s t hst a h => h.mono hst
  rw [Choices, ← hclosure]
  exact prune_isGreatest hmono (stays_iff hnames hmodel) hnodup (Nat.lt_succ_of_le hlength)

end Enabled

section Provided

variable {config : Config} {model : Model} {requested enabled : List String}

theorem providers_length (symbol : String) :
    (providers model enabled symbol).length = ((provided model enabled).map Prod.fst).count symbol := by
  rw [providers, List.length_map, List.count, List.countP_map, List.countP_eq_length_filter]
  rfl

theorem provided_symbols : (provided model enabled).map Prod.fst =
    model.order.flatMap fun name => if name ∈ enabled then model.provides name else [] := by
  rw [provided, List.map_flatMap]
  refine List.flatMap_congr fun name _ => ?_
  split
  · rw [List.map_map]
    exact List.map_id _
  · rfl

/-- It fails exactly when a symbol is provided twice. -/
theorem select_error_iff : (∃ message, select model requested = .error message) ↔
    ¬((provided model (enabledNames model requested)).map Prod.fst).Nodup := by
  unfold select
  dsimp only
  split
  · next e h =>
    refine iff_of_true ⟨_,rfl⟩ fun hnodup => ?_
    have htwice := List.find?_some h
    rw [decide_eq_true_iff, providers_length] at htwice
    have := List.nodup_iff_count_le_one.mp hnodup e.1
    omega
  · next h =>
    refine iff_of_false (fun h => by obtain ⟨_,h⟩ := h; cases h) (not_not.mpr ?_)
    refine List.nodup_iff_count_le_one.mpr fun symbol => ?_
    by_cases hmem : symbol ∈ (provided model (enabledNames model requested)).map Prod.fst
    · obtain ⟨e,he,rfl⟩ := List.mem_map.mp hmem
      have honce := List.find?_eq_none.mp h e he
      rw [decide_eq_true_iff, providers_length] at honce
      omega
    · rw [List.count_eq_zero.mpr hmem]
      exact Nat.zero_le 1

theorem select_ok (h : select model requested = .ok enabled) : enabled = enabledNames model requested := by
  unfold select at h
  dsimp only at h
  split at h
  · cases h
  · exact (Except.ok.inj h).symm

theorem provides_feature (hnames : (config.items.map Item.name).Nodup) (hmodel : byName config = .ok model) {f : Feature}
    (hf : f ∈ config.features) : model.provides f.name = f.provides := by
  have hitem : Item.feature f ∈ config.items := List.mem_append_left _ (List.mem_map_of_mem hf)
  have hselect : config.selectables f.name = some (.feature f) := (selectables_some hnames).mpr ⟨hitem,rfl⟩
  rw [Model.provides, byName_eq hmodel]
  dsimp only
  rw [hselect]
  rfl

theorem mem_provides (hnames : (config.items.map Item.name).Nodup) (hmodel : byName config = .ok model)
    {name symbol : String} : symbol ∈ model.provides name ↔
      ∃ f ∈ config.features, f.name = name ∧ symbol ∈ f.provides := by
  constructor
  · intro h
    rw [Model.provides, byName_eq hmodel] at h
    dsimp only at h
    cases hitem : config.selectables name with
    | none =>
      rw [hitem] at h
      exact absurd h List.not_mem_nil
    | some item =>
      rw [hitem] at h
      obtain ⟨hmem,hname⟩ := (selectables_some hnames).mp hitem
      rcases List.mem_append.mp hmem with hmem|hmem
      · obtain ⟨f,hf,rfl⟩ := List.mem_map.mp hmem
        exact ⟨f,hf,hname,h⟩
      · obtain ⟨a,-,rfl⟩ := List.mem_map.mp hmem
        exact absurd h List.not_mem_nil
  · rintro ⟨f,hf,rfl,h⟩
    rwa [provides_feature hnames hmodel hf]

/-- A symbol is provided twice by two features or by one that lists it twice. -/
theorem provided_nodup_iff (hnames : (config.items.map Item.name).Nodup) (hmodel : byName config = .ok model) :
    ((provided model enabled).map Prod.fst).Nodup ↔
      ¬Conflict config {name | name ∈ enabled} ∧ ∀ f ∈ config.features, f.name ∈ enabled → f.provides.Nodup := by
  have horder : model.order = config.items.map Item.name := by rw [byName_eq hmodel]
  have hsymbol : ∀ name symbol, symbol ∈ (if name ∈ enabled then model.provides name else []) ↔
      name ∈ enabled ∧ symbol ∈ model.provides name := fun name symbol => by
    split
    · next h => exact (and_iff_right h).symm
    · next h => exact iff_of_false List.not_mem_nil fun hand => h hand.1
  rw [provided_symbols, List.nodup_flatMap, and_comm]
  refine and_congr ?_ ?_
  · constructor
    · rintro hdisjoint ⟨f,hf,g,hg,hfs,hgs,hne,symbol,hfp,hgp⟩
      have hmem : ∀ f ∈ config.features, f.name ∈ model.order := fun f hf => horder ▸
        List.mem_map_of_mem (f := Item.name) (List.mem_append_left _ (List.mem_map_of_mem hf))
      have hsymm : Std.Symm (Function.onFun List.Disjoint fun name =>
          if name ∈ enabled then model.provides name else []) := ⟨fun _ _ h _ ha hb => h hb ha⟩
      have hall := hdisjoint.forall (hmem f hf) (hmem g hg) hne
      exact hall ((hsymbol _ _).mpr ⟨hfs,(mem_provides hnames hmodel).mpr ⟨f,hf,rfl,hfp⟩⟩)
        ((hsymbol _ _).mpr ⟨hgs,(mem_provides hnames hmodel).mpr ⟨g,hg,rfl,hgp⟩⟩)
    · intro h
      refine (horder ▸ hnames : model.order.Nodup).imp fun {a b} hne symbol ha hb => h ?_
      obtain ⟨hae,ha⟩ := (hsymbol _ _).mp ha
      obtain ⟨hbe,hb⟩ := (hsymbol _ _).mp hb
      obtain ⟨f,hf,rfl,hfp⟩ := (mem_provides hnames hmodel).mp ha
      obtain ⟨g,hg,rfl,hgp⟩ := (mem_provides hnames hmodel).mp hb
      exact ⟨f,hf,g,hg,hae,hbe,hne,symbol,hfp,hgp⟩
  · constructor
    · intro h f hf hfe
      have := h f.name (horder ▸ List.mem_map_of_mem (f := Item.name) (List.mem_append_left _ (List.mem_map_of_mem hf)))
      rwa [if_pos hfe, provides_feature hnames hmodel hf] at this
    · intro h name hname
      split
      · next hne =>
        rw [horder] at hname
        obtain ⟨item,hitem,rfl⟩ := List.mem_map.mp hname
        rcases List.mem_append.mp hitem with hmem|hmem
        · obtain ⟨f,hf,rfl⟩ := List.mem_map.mp hmem
          have hprovides : model.provides (Item.feature f).name = f.provides := provides_feature hnames hmodel hf
          rw [hprovides]
          exact h f hf hne
        · obtain ⟨a,-,rfl⟩ := List.mem_map.mp hmem
          rw [Model.provides, byName_eq hmodel]
          dsimp only
          rw [(selectables_some hnames).mpr ⟨hitem,rfl⟩]
          exact List.nodup_nil
      · exact List.nodup_nil

end Provided

section Selected

variable {config : Config} {model : Model} {requested : List String}

theorem select_error_conflict (hnames : (config.items.map Item.name).Nodup) (hmodel : byName config = .ok model) :
    (∃ message, select model requested = .error message) ↔
      Conflict config {name | name ∈ enabledNames model requested} ∨
        ∃ f ∈ config.features, f.name ∈ enabledNames model requested ∧ ¬f.provides.Nodup := by
  rw [select_error_iff, provided_nodup_iff hnames hmodel, not_and_or, not_not]
  simp only [not_forall, exists_prop]

/-- The same definitions in another order. -/
structure Reordered (config config' : Config) : Prop where
  features : config'.features.Perm config.features
  actionConfigs : config'.actionConfigs.Perm config.actionConfigs

namespace Reordered

variable {config' : Config} (h : Reordered config config') {requested' : List String}

include h

theorem items : config'.items.Perm config.items := (h.features.map _).append (h.actionConfigs.map _)

theorem implies : Implies config' = Implies config := by
  funext a b
  exact propext (exists_congr fun item => and_congr_left fun _ => h.items.mem_iff)

theorem defined : Defined config' = Defined config := by
  funext name
  exact propext (exists_congr fun item => and_congr_left fun _ => h.items.mem_iff)

theorem choices (hrequested : ∀ name, name ∈ requested' ↔ name ∈ requested) :
    Choices config' requested' = Choices config requested := by
  have hclosure : Closure config' requested' = Closure config requested := by
    unfold Closure
    rw [h.implies, h.defined]
    simp only [hrequested]
  have hstays : Stays config' requested' = Stays config requested := by
    funext s name
    unfold Stays
    rw [h.implies]
    simp only [hrequested, h.items.mem_iff]
  rw [Choices, hclosure, hstays, Choices]

theorem conflict {s : Set String} : Conflict config' s ↔ Conflict config s := by
  unfold Conflict
  simp only [h.features.mem_iff]

/-- The order of definitions and of requests does not matter. -/
theorem select (hnames : (config.items.map Item.name).Nodup) (hmodel : byName config = .ok model)
    (hsize : (config.items.flatMap Item.implies).length < rounds)
    (hrequested : ∀ name, name ∈ requested' ↔ name ∈ requested) : ∃ model', byName config' = .ok model' ∧
      ((∃ message, CcFeatures.select model' requested' = .error message) ↔
        ∃ message, CcFeatures.select model requested = .error message) ∧
      ∀ enabled enabled', CcFeatures.select model requested = .ok enabled →
        CcFeatures.select model' requested' = .ok enabled' → ∀ name, name ∈ enabled' ↔ name ∈ enabled := by
  have hnames' : (config'.items.map Item.name).Nodup := (h.items.map _).nodup_iff.mpr hnames
  have hdefined : ∀ a b, Implies config' a b → Defined config' b := by
    rw [h.implies, h.defined]
    exact (byName_ok_iff hnames).mp ⟨model,hmodel⟩
  obtain ⟨model',hmodel'⟩ := (byName_ok_iff hnames').mpr hdefined
  have hsize' : (config'.items.flatMap Item.implies).length < rounds := by
    rwa [(h.items.flatMap_right _).length_eq]
  have hgreatest : IsGreatest (Choices config requested) {name | name ∈ enabledNames model requested} :=
    enabledNames_isGreatest hnames hmodel hsize
  have hgreatest' : IsGreatest (Choices config' requested') {name | name ∈ enabledNames model' requested'} :=
    enabledNames_isGreatest hnames' hmodel' hsize'
  rw [h.choices hrequested] at hgreatest'
  have hsame := hgreatest'.unique hgreatest
  have hmem : ∀ name, name ∈ enabledNames model' requested' ↔ name ∈ enabledNames model requested := fun name =>
    Set.ext_iff.mp hsame name
  refine ⟨model',hmodel',?_,fun enabled enabled' ha hb name => ?_⟩
  · rw [select_error_conflict hnames' hmodel', select_error_conflict hnames hmodel, hsame, h.conflict]
    simp only [h.features.mem_iff, hmem]
  · rw [select_ok ha, select_ok hb]
    exact hmem name

end Reordered

/-- What is selected is the largest consistent choice, in whatever order it is asked for. It fails
for two features that provide a symbol and for no other choice exactly when none provides a symbol
twice by itself. -/
theorem select_iff (config : Config) (requested : List String) (model : Model)
    (hnames : (config.items.map Item.name).Nodup) (hmodel : byName config = .ok model)
    (hsize : (config.items.flatMap Item.implies).length < rounds) :
    ((∃ s, IsGreatest (Choices config requested) s ∧
        (∀ enabled, select model requested = .ok enabled → {name | name ∈ enabled} = s) ∧
        ((∃ message, select model requested = .error message) ↔ Conflict config s)) ∧
      ∀ config' requested', Reordered config config' → (∀ name, name ∈ requested' ↔ name ∈ requested) →
        ∃ model', byName config' = .ok model' ∧
          ((∃ message, select model' requested' = .error message) ↔ ∃ message, select model requested = .error message) ∧
          ∀ enabled enabled', select model requested = .ok enabled → select model' requested' = .ok enabled' →
            ∀ name, name ∈ enabled' ↔ name ∈ enabled) ↔
      ∀ s, IsGreatest (Choices config requested) s →
        Conflict config s ∨ ∀ f ∈ config.features, f.name ∈ s → f.provides.Nodup := by
  have hgreatest : IsGreatest (Choices config requested) {name | name ∈ enabledNames model requested} :=
    enabledNames_isGreatest hnames hmodel hsize
  have herror : (∃ message, select model requested = .error message) ↔ _ := select_error_conflict hnames hmodel
  constructor
  · rintro ⟨⟨s,hs,-,hfails⟩,-⟩ t ht
    have hst := hs.unique hgreatest
    obtain rfl := ht.unique hs
    rw [hst] at hfails ⊢
    by_cases hconflict : Conflict config {name | name ∈ enabledNames model requested}
    · exact .inl hconflict
    · refine .inr fun f hf hfs => ?_
      by_contra htwice
      exact hconflict (hfails.mp (herror.mpr (.inr ⟨f,hf,hfs,htwice⟩)))
  · intro h
    refine ⟨⟨_,hgreatest,fun enabled hok => ?_,?_⟩,fun config' requested' hre hrequested =>
      hre.select hnames hmodel hsize hrequested⟩
    · rw [select_ok hok]
    · rw [herror]
      refine or_iff_left_of_imp fun htwice => ?_
      obtain ⟨f,hf,hfs,hnot⟩ := htwice
      exact (h _ hgreatest).resolve_right fun hall => hnot (hall f hf hfs)

/-- Two features of which one implies the other. -/
def chained : Config := ⟨[⟨"a",["b"],[],["x"]⟩,⟨"b",[],[],[]⟩],[]⟩

theorem select_chained : ∃ model, byName chained = .ok model ∧ (chained.items.map Item.name).Nodup ∧
    (chained.items.flatMap Item.implies).length < rounds ∧
    (((∃ s, IsGreatest (Choices chained ["a"]) s ∧
        (∀ enabled, select model ["a"] = .ok enabled → {name | name ∈ enabled} = s) ∧
        ((∃ message, select model ["a"] = .error message) ↔ Conflict chained s)) ∧
      ∀ config' requested', Reordered chained config' → (∀ name, name ∈ requested' ↔ name ∈ ["a"]) →
        ∃ model', byName config' = .ok model' ∧
          ((∃ message, select model' requested' = .error message) ↔ ∃ message, select model ["a"] = .error message) ∧
          ∀ enabled enabled', select model ["a"] = .ok enabled → select model' requested' = .ok enabled' →
            ∀ name, name ∈ enabled' ↔ name ∈ enabled) ↔
      ∀ s, IsGreatest (Choices chained ["a"]) s →
        Conflict chained s ∨ ∀ f ∈ chained.features, f.name ∈ s → f.provides.Nodup) :=
  ⟨_,rfl,by decide,by decide,select_iff chained ["a"] _ (by decide) rfl (by decide)⟩

/-- One feature that lists a symbol twice. -/
def twice : Config := ⟨[⟨"a",[],[],["x","x"]⟩],[]⟩

/-- It is refused, though no two features provide the symbol. -/
theorem twice_refused : (∃ model message, byName twice = .ok model ∧ select model ["a"] = .error message) ∧
    ∀ s, ¬Conflict twice s := by
  refine ⟨⟨_,_,rfl,rfl⟩,fun s => ?_⟩
  rintro ⟨f,hf,g,hg,-,-,hne,-⟩
  rw [twice, List.mem_singleton] at hf hg
  exact hne (by rw [hf, hg])

end Selected

end BuildFiji.CcFeatures

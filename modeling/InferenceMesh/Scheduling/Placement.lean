-- What one allocation and one deallocation do: the loads of the layers in the
-- range change, the other nodes stay as they are, and on either exit the maps
-- from ids to nodes and from ids to ranges agree.
import InferenceMesh.Scheduling.GlobalAllocation

open ordered_dict python state_exn binary_heap
open scheduling.model_info scheduling.node

namespace scheduling.layer_allocation

open Allocator

/-! ## The layers of a range -/

theorem mem_layer_range {start_layer end_layer l : Int} :
    l ∈ layer_range start_layer end_layer ↔ start_layer ≤ l ∧ l < end_layer := by
  unfold layer_range
  rw [List.mem_map]
  constructor
  · rintro ⟨k, hk, rfl⟩
    rw [List.mem_range] at hk
    omega
  · rintro ⟨h1, h2⟩
    refine ⟨(l - start_layer).toNat, ?_, ?_⟩
    · rw [List.mem_range]
      omega
    · omega

theorem layer_range_nodup (start_layer end_layer : Int) : (layer_range start_layer end_layer).Nodup := by
  unfold layer_range
  apply List.Nodup.map _ List.nodup_range
  intro i j h
  simp only at h
  omega

/-- The memory that a node keeps for the cache of each of its layers. -/
def kv_size (n : Node) : Int := n.per_decoder_layer_kv_cache_memory.getD 0

/-- A load with one more node. -/
def host (n : Node) (x : LayerLoad) : LayerLoad :=
  { x with
    current_kv_size := x.current_kv_size + kv_size n
    hosting_nodes := insert n.node_id x.hosting_nodes }

/-- A load without a node that may host the layer. -/
def unhost (n : Node) (x : LayerLoad) : LayerLoad :=
  if n.node_id ∈ x.hosting_nodes then
    { x with
      current_kv_size := x.current_kv_size - kv_size n
      hosting_nodes := x.hosting_nodes.erase n.node_id }
  else x

/-- The loads of some layers went through `f`, and the other ones are as before. -/
def Changed (f : LayerLoad → LayerLoad) (layers : List Int) (loads loads' : List LayerLoad) : Prop :=
  ∀ i : Nat, loads'[i]? = (loads[i]?).map (fun x => if (i : Int) ∈ layers then f x else x)

theorem Changed.nil (f : LayerLoad → LayerLoad) (loads : List LayerLoad) :
    Changed f [] loads loads := by
  intro i
  simp

theorem Changed.length_eq {f : LayerLoad → LayerLoad} {layers : List Int}
    {loads loads' : List LayerLoad} (h : Changed f layers loads loads') :
    loads'.length = loads.length := by
  apply le_antisymm
  · by_contra hlt
    have hi := h loads.length
    rw [List.getElem?_eq_getElem (by omega), List.getElem?_eq_none (le_refl _)] at hi
    cases hi
  · by_contra hlt
    have hi := h loads'.length
    rw [List.getElem?_eq_getElem (l := loads) (by omega), List.getElem?_eq_none (le_refl _)] at hi
    cases hi

/-- One layer, and then layers other than it. -/
theorem Changed.cons {f : LayerLoad → LayerLoad} {l : Int} {layers : List Int} (hl : 0 ≤ l)
    (hnot : l ∉ layers) {loads loads' : List LayerLoad}
    (h : Changed f layers (loads.modify l.toNat f) loads') : Changed f (l :: layers) loads loads' := by
  intro i
  rw [h i, List.getElem?_modify]
  by_cases hi : l.toNat = i
  · have hli : l = (i : Int) := by omega
    subst hli
    cases loads[i]? <;> simp [hnot, hi]
  · have hli : (i : Int) ≠ l := by omega
    cases loads[i]? <;> simp [hli, hi]

/-- A change that leaves the load of some layer alone does nothing there. -/
theorem Changed.cons_outside {f : LayerLoad → LayerLoad} {l : Int} {layers : List Int}
    {loads loads' : List LayerLoad} (hl : ¬ (0 ≤ l ∧ l < loads.length))
    (h : Changed f layers loads loads') : Changed f (l :: layers) loads loads' := by
  intro i
  rw [h i]
  by_cases hi : i < loads.length
  · have hli : (i : Int) ≠ l := by omega
    simp [hli]
  · rw [List.getElem?_eq_none (by omega)]
    rfl

/-! ## Loading and unloading -/

theorem layer_index_some {a : Allocator} {l : Int} (hl : 0 ≤ l ∧ l < a.layer_to_load.length) :
    a.layer_index l = some l.toNat := by
  unfold layer_index
  rw [if_pos hl]

theorem layer_index_none {a : Allocator} {l : Int} (hl : ¬ (0 ≤ l ∧ l < a.layer_to_load.length)) :
    a.layer_index l = none := by
  unfold layer_index
  rw [if_neg hl]

theorem kv_size_eq {n : Node} {start_layer end_layer : Int} (hs : n.start_layer = some start_layer)
    (he : n.end_layer = some end_layer) (hlt : start_layer < end_layer) :
    n.per_decoder_layer_kv_cache_memory = some (kv_size n) := by
  have hnum : n.num_current_layers = end_layer - start_layer := by
    simp [Node.num_current_layers, hs, he]
  unfold kv_size Node.per_decoder_layer_kv_cache_memory
  rw [if_neg (by omega)]
  rfl

theorem modify_load_self (a : Allocator) (l : Nat) (f : LayerLoad → LayerLoad)
    (h : ∀ x, a.layer_to_load[l]? = some x → f x = x) : a.modify_load l f = a := by
  have hsame : a.layer_to_load.modify l f = a.layer_to_load := by
    apply List.ext_getElem?
    intro i
    rw [List.getElem?_modify]
    by_cases hi : l = i
    · subst hi
      rcases hx : a.layer_to_load[l]? with _ | x
      · rfl
      · simp [h x hx]
    · cases a.layer_to_load[i]? <;> simp [hi]
  unfold modify_load
  rw [hsame]

theorem modify_load_twice (a : Allocator) (l : Nat) {f g h : LayerLoad → LayerLoad}
    (hfg : ∀ x, a.layer_to_load[l]? = some x → g (f x) = h x) :
    (a.modify_load l f).modify_load l g = a.modify_load l h := by
  have hsame : (a.layer_to_load.modify l f).modify l g = a.layer_to_load.modify l h := by
    apply List.ext_getElem?
    intro i
    simp only [List.getElem?_modify]
    by_cases hi : l = i
    · subst hi
      rcases hx : a.layer_to_load[l]? with _ | x
      · rfl
      · simp [hfg x hx]
    · cases a.layer_to_load[i]? <;> simp [hi]
  unfold modify_load
  simp only [hsame]

theorem load_layer_ok {a : Allocator} {r : Ref} {l : Int}
    (hl : 0 ≤ l ∧ l < a.layer_to_load.length)
    (hkv : (a.store r).per_decoder_layer_kv_cache_memory = some (kv_size (a.store r))) :
    load_layer r l a = .ok () (a.modify_load l.toNat (host (a.store r))) := by
  have hindex := layer_index_some hl
  simp only [load_layer, add_node, bind, EStateM.bind, get, getThe, MonadStateOf.get, EStateM.get,
    hindex, hkv, modify, modifyGet, MonadStateOf.modifyGet, EStateM.modifyGet]
  rw [modify_load_twice (h := host (a.store r))]
  intro x _
  rfl

theorem load_layer_error {a : Allocator} {r : Ref} {l : Int}
    (hl : ¬ (0 ≤ l ∧ l < a.layer_to_load.length)) :
    ∃ e, load_layer r l a = .error e a := by
  have hindex := layer_index_none hl
  simp only [load_layer, bind, EStateM.bind, get, getThe, MonadStateOf.get, EStateM.get, hindex]
  exact ⟨_, rfl⟩

theorem unload_layer_outside {a : Allocator} {r : Ref} {l : Int}
    (hl : ¬ (0 ≤ l ∧ l < a.layer_to_load.length)) : unload_layer r l a = .ok () a := by
  have hindex := layer_index_none hl
  simp only [unload_layer, bind, EStateM.bind, get, getThe, MonadStateOf.get, EStateM.get, hindex]
  rfl

theorem unload_layer_ok {a : Allocator} {r : Ref} {l : Int}
    (hl : 0 ≤ l ∧ l < a.layer_to_load.length)
    (hkv : (a.store r).per_decoder_layer_kv_cache_memory = some (kv_size (a.store r))) :
    unload_layer r l a = .ok () (a.modify_load l.toNat (unhost (a.store r))) := by
  have hindex := layer_index_some hl
  simp only [unload_layer, remove_node, bind, EStateM.bind, get, getThe, MonadStateOf.get,
    EStateM.get, hindex, hkv, modify, modifyGet, MonadStateOf.modifyGet]
  split
  · rename_i hmem
    simp only [EStateM.bind, EStateM.modifyGet]
    rw [modify_load_twice (h := unhost (a.store r))]
    intro x hx
    have hx' : (a.store r).node_id ∈ x.hosting_nodes := by simpa [hx] using hmem
    simp [unhost, hx']
  · rename_i hmem
    rw [modify_load_self]
    · rfl
    · intro x hx
      have hx' : (a.store r).node_id ∉ x.hosting_nodes := by simpa [hx] using hmem
      simp [unhost, hx']

theorem load_layers_ok {r : Ref} (layers : List Int) (a : Allocator)
    (hin : ∀ l ∈ layers, 0 ≤ l ∧ l < a.layer_to_load.length) (hnodup : layers.Nodup)
    (hkv : (a.store r).per_decoder_layer_kv_cache_memory = some (kv_size (a.store r))) :
    ∃ loads, layers.forM (load_layer r) a = .ok () { a with layer_to_load := loads } ∧
      Changed (host (a.store r)) layers a.layer_to_load loads := by
  induction layers generalizing a with
  | nil => exact ⟨a.layer_to_load, rfl, Changed.nil _ _⟩
  | cons l rest ih =>
    obtain ⟨hnot, hrest⟩ := List.nodup_cons.mp hnodup
    have hl := hin l List.mem_cons_self
    obtain ⟨loads, hrun, hchanged⟩ := ih (a.modify_load l.toNat (host (a.store r)))
      (fun k hk => by simpa [modify_load] using hin k (List.mem_cons_of_mem _ hk)) hrest hkv
    exact ⟨loads, (bind_of_ok (load_layer_ok hl hkv)).trans hrun, Changed.cons hl.1 hnot hchanged⟩

/-- The layers before the first one that does not exist are loaded. -/
theorem load_layers_error {r : Ref} (layers : List Int) (a : Allocator) (hnodup : layers.Nodup)
    (hout : ∃ l ∈ layers, ¬ (0 ≤ l ∧ l < a.layer_to_load.length))
    (hkv : (a.store r).per_decoder_layer_kv_cache_memory = some (kv_size (a.store r))) :
    ∃ e loads, layers.forM (load_layer r) a = .error e { a with layer_to_load := loads } ∧
      Changed (host (a.store r)) (layers.takeWhile (fun l => (a.layer_index l).isSome))
        a.layer_to_load loads := by
  induction layers generalizing a with
  | nil =>
    obtain ⟨l, hl, _⟩ := hout
    cases hl
  | cons l rest ih =>
    obtain ⟨hnot, hrestnodup⟩ := List.nodup_cons.mp hnodup
    by_cases hl : 0 ≤ l ∧ l < a.layer_to_load.length
    · have hrest : ∃ k ∈ rest, ¬ (0 ≤ k ∧ k < a.layer_to_load.length) := by
        obtain ⟨k, hk, hkout⟩ := hout
        rcases List.mem_cons.mp hk with rfl | hk
        · exact absurd hl hkout
        · exact ⟨k, hk, hkout⟩
      obtain ⟨e, loads, hrun, hchanged⟩ := ih
        (a.modify_load l.toNat (host (a.store r))) hrestnodup
        (by simpa [modify_load] using hrest) hkv
      have hindex : ∀ k, (a.modify_load l.toNat (host (a.store r))).layer_index k =
          a.layer_index k := by
        intro k
        simp [layer_index, modify_load]
      simp only [hindex] at hchanged
      rw [List.takeWhile_cons_of_pos (by rw [layer_index_some hl]; rfl)]
      exact ⟨e, loads, (bind_of_ok (load_layer_ok hl hkv)).trans hrun,
        Changed.cons hl.1 (fun hmem => hnot ((List.takeWhile_sublist _).subset hmem)) hchanged⟩
    · obtain ⟨e, he⟩ := load_layer_error (r := r) hl
      rw [List.takeWhile_cons_of_neg (by rw [layer_index_none hl]; simp)]
      exact ⟨e, a.layer_to_load, bind_of_error he, Changed.nil _ _⟩

theorem unload_layers_ok {r : Ref} (layers : List Int) (a : Allocator) (hnodup : layers.Nodup)
    (hkv : layers ≠ [] →
      (a.store r).per_decoder_layer_kv_cache_memory = some (kv_size (a.store r))) :
    ∃ loads, layers.forM (unload_layer r) a = .ok () { a with layer_to_load := loads } ∧
      Changed (unhost (a.store r)) layers a.layer_to_load loads := by
  induction layers generalizing a with
  | nil => exact ⟨a.layer_to_load, rfl, Changed.nil _ _⟩
  | cons l rest ih =>
    obtain ⟨hnot, hrest⟩ := List.nodup_cons.mp hnodup
    have hkv' := hkv (List.cons_ne_nil _ _)
    by_cases hl : 0 ≤ l ∧ l < a.layer_to_load.length
    · obtain ⟨loads, hrun, hchanged⟩ := ih (a.modify_load l.toNat (unhost (a.store r))) hrest
        (fun _ => hkv')
      exact ⟨loads, (bind_of_ok (unload_layer_ok hl hkv')).trans hrun,
        Changed.cons hl.1 hnot hchanged⟩
    · obtain ⟨loads, hrun, hchanged⟩ := ih a hrest (fun _ => hkv')
      exact ⟨loads, (bind_of_ok (unload_layer_outside hl)).trans hrun,
        Changed.cons_outside hl hchanged⟩

/-! ## One allocation -/

/-- The range of an allocation is one of layers that exist. -/
def Allocator.fits (a : Allocator) (start_layer end_layer : Int) : Prop :=
  0 ≤ start_layer ∧ end_layer ≤ a.layer_to_load.length

theorem record_kv_size (a : Allocator) (r : Ref) {start_layer end_layer : Int}
    (hlt : start_layer < end_layer) :
    ((a.record_allocation r start_layer end_layer).store r).per_decoder_layer_kv_cache_memory =
      some (kv_size ((a.record_allocation r start_layer end_layer).store r)) := by
  have hs : ((a.record_allocation r start_layer end_layer).store r).start_layer =
      some start_layer := by
    simp [record_allocation, Node.set_layer_allocation]
  have he : ((a.record_allocation r start_layer end_layer).store r).end_layer = some end_layer := by
    simp [record_allocation, Node.set_layer_allocation]
  exact kv_size_eq hs he hlt

theorem allocate_empty {a : Allocator} {r : Ref} {start_layer end_layer : Int}
    (h : end_layer ≤ start_layer) : ∃ e, allocate r start_layer end_layer a = .error e a := by
  simp only [allocate, h, if_true]
  exact ⟨_, rfl⟩

/-- An allocation of existing layers returns, and the node hosts exactly the layers of the range. -/
theorem allocate_ok {a : Allocator} {r : Ref} {start_layer end_layer : Int}
    (hlt : start_layer < end_layer) (hfits : a.fits start_layer end_layer) :
    ∃ loads, allocate r start_layer end_layer a =
        .ok () ({ a.record_allocation r start_layer end_layer with
          layer_to_load := loads }).update_layer_loads_heap ∧
      Changed (host ((a.record_allocation r start_layer end_layer).store r))
        (layer_range start_layer end_layer) a.layer_to_load loads := by
  obtain ⟨loads, hrun, hchanged⟩ := load_layers_ok (r := r) (layer_range start_layer end_layer)
    (a.record_allocation r start_layer end_layer)
    (by
      intro l hl
      have hl' := mem_layer_range.mp hl
      have hlen : (a.record_allocation r start_layer end_layer).layer_to_load = a.layer_to_load := rfl
      rw [hlen]
      obtain ⟨h1, h2⟩ := hfits
      omega)
    (layer_range_nodup _ _) (record_kv_size a r hlt)
  refine ⟨loads, ?_, hchanged⟩
  simp only [allocate, if_neg (not_le.mpr hlt)]
  exact (bind_of_ok rfl).trans (bind_of_ok hrun)

/-- An allocation of a layer that does not exist raises, and leaves the range behind. -/
theorem allocate_outside {a : Allocator} {r : Ref} {start_layer end_layer : Int}
    (hlt : start_layer < end_layer) (hfits : ¬ a.fits start_layer end_layer) :
    ∃ e loads, allocate r start_layer end_layer a =
        .error e { a.record_allocation r start_layer end_layer with layer_to_load := loads } ∧
      Changed (host ((a.record_allocation r start_layer end_layer).store r))
        ((layer_range start_layer end_layer).takeWhile (fun l => (a.layer_index l).isSome))
        a.layer_to_load loads := by
  obtain ⟨e, loads, hrun, hchanged⟩ := load_layers_error (r := r)
    (layer_range start_layer end_layer) (a.record_allocation r start_layer end_layer)
    (layer_range_nodup _ _)
    (by
      unfold fits at hfits
      by_cases h0 : 0 ≤ start_layer
      · refine ⟨end_layer - 1, mem_layer_range.mpr (by omega), ?_⟩
        show ¬ (0 ≤ end_layer - 1 ∧ end_layer - 1 < (a.layer_to_load.length : Int))
        omega
      · exact ⟨start_layer, mem_layer_range.mpr (by omega), by omega⟩)
    (record_kv_size a r hlt)
  refine ⟨e, loads, ?_, hchanged⟩
  simp only [allocate, if_neg (not_le.mpr hlt)]
  exact (bind_of_ok rfl).trans (bind_of_error hrun)

/-! ## One deallocation -/

theorem deallocate_unallocated {a : Allocator} {r : Ref} (h : (a.store r).is_allocated = false) :
    deallocate r a = .ok () a := by
  simp only [deallocate, bind, EStateM.bind, get, getThe, MonadStateOf.get, EStateM.get]
  unfold Node.is_allocated at h
  rcases hs : (a.store r).start_layer with _ | s
  · rfl
  · rcases he : (a.store r).end_layer with _ | e
    · rfl
    · simp [hs, he] at h

/-- A deallocation never raises. -/
theorem deallocate_ok {a : Allocator} {r : Ref} {start_layer end_layer : Int}
    (hs : (a.store r).start_layer = some start_layer)
    (he : (a.store r).end_layer = some end_layer) :
    ∃ loads, deallocate r a =
        .ok () (({ a.forget_allocation r with layer_to_load := loads }).clear_node r) ∧
      Changed (unhost (a.store r)) (layer_range start_layer end_layer) a.layer_to_load loads := by
  obtain ⟨loads, hrun, hchanged⟩ := unload_layers_ok (r := r) (layer_range start_layer end_layer)
    (a.forget_allocation r) (layer_range_nodup _ _)
    (by
      intro hne
      obtain ⟨l, hl⟩ := List.exists_mem_of_ne_nil _ hne
      have hl' := mem_layer_range.mp hl
      exact kv_size_eq hs he (by omega))
  refine ⟨loads, ?_, hchanged⟩
  simp only [deallocate, bind, EStateM.bind, get, getThe, MonadStateOf.get, EStateM.get, hs, he]
  exact (bind_of_ok rfl).trans (bind_of_ok hrun)

/-! ## What moves with a node -/

/-- A node without its range. Nothing in it changes while the allocator runs. -/
def bare (n : Node) : Node := { n with start_layer := none, end_layer := none, is_active := false }

/-- Two states with the same settings and the same nodes, up to the ranges of these. -/
structure Alike (a a' : Allocator) : Prop where
  model_info : a'.model_info = a.model_info
  strategy : a'.strategy = a.strategy
  rebalance_threshold : a'.rebalance_threshold = a.rebalance_threshold
  iterations : a'.water_filling_max_iterations = a.water_filling_max_iterations
  left_over : a'.assign_left_over_nodes = a.assign_left_over_nodes
  loads : a'.layer_to_load.length = a.layer_to_load.length
  store : ∀ r, bare (a'.store r) = bare (a.store r)

theorem Alike.refl (a : Allocator) : Alike a a := ⟨rfl, rfl, rfl, rfl, rfl, rfl, fun _ => rfl⟩

theorem Alike.trans {a b c : Allocator} (h : Alike a b) (h' : Alike b c) : Alike a c :=
  ⟨h'.model_info.trans h.model_info, h'.strategy.trans h.strategy,
    h'.rebalance_threshold.trans h.rebalance_threshold, h'.iterations.trans h.iterations,
    h'.left_over.trans h.left_over, h'.loads.trans h.loads,
    fun r => (h'.store r).trans (h.store r)⟩

theorem Alike.node_id {a a' : Allocator} (h : Alike a a') (r : Ref) : a'.node_id r = a.node_id r := by
  have hr := congrArg Node.node_id (h.store r)
  exact hr

theorem Alike.layer_capacity {a a' : Allocator} (h : Alike a a') (r : Ref) (embed lm_head : Bool) :
    (a'.store r).get_decoder_layer_capacity embed lm_head =
      (a.store r).get_decoder_layer_capacity embed lm_head := by
  have hr := congrArg (fun n => Node.get_decoder_layer_capacity n embed lm_head) (h.store r)
  exact hr

/-- Each layer of the model has a load, and nothing else has. -/
def EveryLayer (a : Allocator) : Prop := a.layer_to_load.length = a.model_info.num_layers

theorem Alike.every_layer {a a' : Allocator} (h : Alike a a') (ha : EveryLayer a) :
    EveryLayer a' := by
  unfold EveryLayer at *
  rw [h.loads, h.model_info]
  exact ha

/-- Only the given node may have another range, and only its id another entry. -/
structure Moved (r : Ref) (a a' : Allocator) : Prop where
  alike : Alike a a'
  nodes : a'.nodes = a.nodes
  store : ∀ r', r' ≠ r → a'.store r' = a.store r'
  ids : ∀ id, id ≠ a.node_id r → a'.node_id_to_node.get? id = a.node_id_to_node.get? id

theorem Moved.refl (r : Ref) (a : Allocator) : Moved r a a :=
  ⟨Alike.refl a, rfl, fun _ _ => rfl, fun _ _ => rfl⟩

theorem record_moved (a : Allocator) (r : Ref) (start_layer end_layer : Int)
    {loads : List LayerLoad} (hlen : loads.length = a.layer_to_load.length) :
    Moved r a { a.record_allocation r start_layer end_layer with layer_to_load := loads } := by
  refine ⟨⟨rfl, rfl, rfl, rfl, rfl, hlen, ?_⟩, rfl, ?_, ?_⟩
  · intro r'
    by_cases h : r' = r
    · subst h
      simp [record_allocation, bare, Node.set_layer_allocation]
    · simp [record_allocation, h]
  · intro r' h
    simp [record_allocation, h]
  · intro id h
    exact Dict.get?_insert_ne _ _ (Ne.symm h)

theorem allocate_moved (a : Allocator) (r : Ref) (start_layer end_layer : Int) :
    Moved r a (stateOf (allocate r start_layer end_layer a)) := by
  by_cases hlt : start_layer < end_layer
  · by_cases hfits : a.fits start_layer end_layer
    · obtain ⟨loads, hrun, hchanged⟩ := allocate_ok (r := r) hlt hfits
      rw [hrun]
      have h := record_moved a r start_layer end_layer hchanged.length_eq
      exact ⟨⟨rfl, rfl, rfl, rfl, rfl, h.alike.loads, h.alike.store⟩, rfl, h.store, h.ids⟩
    · obtain ⟨e, loads, hrun, hchanged⟩ := allocate_outside (r := r) hlt hfits
      rw [hrun]
      exact record_moved a r start_layer end_layer hchanged.length_eq
  · obtain ⟨e, hrun⟩ := allocate_empty (a := a) (r := r) (not_lt.mp hlt)
    rw [hrun]
    exact Moved.refl r a

/-! ## The views -/

/-- The node has no range. -/
def Idle (n : Node) : Prop := n.start_layer = none ∧ n.end_layer = none

instance (n : Node) : Decidable (Idle n) :=
  inferInstanceAs (Decidable (n.start_layer = none ∧ n.end_layer = none))

/-- The views of the allocator agree: an id leads to the node of that id, the allocation map has
the range of each registered node, and the listed nodes are registered, each of them once. -/
structure Views (a : Allocator) : Prop where
  named : ∀ id r, a.node_id_to_node.get? id = some r → a.node_id r = id
  ranges : ∀ id r, a.node_id_to_node.get? id = some r →
    (a.store r).start_layer = (a.node_allocation.get? id).map Prod.fst ∧
      (a.store r).end_layer = (a.node_allocation.get? id).map Prod.snd
  registered : ∀ id p, a.node_allocation.get? id = some p →
    ∃ r, a.node_id_to_node.get? id = some r
  ascending : ∀ id start_layer end_layer,
    a.node_allocation.get? id = some (start_layer, end_layer) → start_layer < end_layer
  listed : ∀ r ∈ a.nodes, a.node_id_to_node.get? (a.node_id r) = some r
  nodup : a.nodes.Nodup

/-- The node is registered under its id, or it is new: its id is unknown and it has no range. -/
def Usable (a : Allocator) (r : Ref) : Prop :=
  a.node_id_to_node.get? (a.node_id r) = some r ∨
    (a.node_id_to_node.get? (a.node_id r) = none ∧ Idle (a.store r))

/-- The node can be allocated: it has no range, and its id is not another node's. -/
def Free (a : Allocator) (r : Ref) : Prop := Usable a r ∧ Idle (a.store r)

theorem Moved.usable {r r' : Ref} {a a' : Allocator} (h : Moved r a a')
    (hne : a.node_id r' ≠ a.node_id r) (hr : Usable a r') : Usable a' r' := by
  have hrr : r' ≠ r := by rintro rfl; exact hne rfl
  unfold Usable
  rw [h.alike.node_id r', h.ids _ hne, h.store r' hrr]
  exact hr

theorem Moved.free {r r' : Ref} {a a' : Allocator} (h : Moved r a a')
    (hne : a.node_id r' ≠ a.node_id r) (hr : Free a r') : Free a' r' := by
  have hrr : r' ≠ r := by rintro rfl; exact hne rfl
  refine ⟨h.usable hne hr.1, ?_⟩
  rw [h.store r' hrr]
  exact hr.2

namespace Views

variable {a : Allocator} {r : Ref}

theorem usable_of_listed (h : Views a) (hr : r ∈ a.nodes) : Usable a r := Or.inl (h.listed r hr)

/-- Listed nodes with one id are one node. -/
theorem eq_of_node_id (h : Views a) {r' : Ref} (hr : r ∈ a.nodes) (hr' : r' ∈ a.nodes)
    (hid : a.node_id r = a.node_id r') : r = r' := by
  have h1 := h.listed r hr
  rw [hid, h.listed r' hr'] at h1
  exact (Option.some.inj h1).symm

theorem ids_nodup (h : Views a) {nodes : List Ref} (hnodup : nodes.Nodup)
    (hsub : ∀ r ∈ nodes, r ∈ a.nodes) : (nodes.map a.node_id).Nodup := by
  apply List.Nodup.map_on _ hnodup
  intro r hr r' hr' hid
  exact h.eq_of_node_id (hsub r hr) (hsub r' hr') hid

theorem idle_of_unallocated (h : Views a) (hr : a.node_id_to_node.get? (a.node_id r) = some r)
    (hnone : a.node_allocation.get? (a.node_id r) = none) : Idle (a.store r) := by
  have hranges := h.ranges _ r hr
  rw [hnone] at hranges
  exact hranges

/-- The range of a registered node is the one that the allocation map has. -/
theorem allocation_of_range (h : Views a) (hr : a.node_id_to_node.get? (a.node_id r) = some r)
    {start_layer end_layer : Int} (hs : (a.store r).start_layer = some start_layer)
    (he : (a.store r).end_layer = some end_layer) :
    a.node_allocation.get? (a.node_id r) = some (start_layer, end_layer) := by
  have hranges := h.ranges _ r hr
  rw [hs, he] at hranges
  rcases hp : a.node_allocation.get? (a.node_id r) with _ | ⟨s, e⟩
  · rw [hp] at hranges
    cases hranges.1
  · rw [hp] at hranges
    simp only [Option.map_some, Option.some.injEq] at hranges
    rw [hranges.1, hranges.2]

theorem unallocated_of_free (h : Views a) (hr : Free a r) :
    a.node_allocation.get? (a.node_id r) = none := by
  rcases hp : a.node_allocation.get? (a.node_id r) with _ | p
  · rfl
  · obtain ⟨r', hr'⟩ := h.registered _ p hp
    obtain ⟨hreg | ⟨hnew, _⟩, hidle⟩ := hr
    · have hstart := (h.ranges _ r hreg).1
      rw [hp, hidle.1] at hstart
      cases hstart
    · rw [hnew] at hr'
      cases hr'

/-- The views after an allocation is recorded. -/
theorem record (h : Views a) (hr : Free a r) {start_layer end_layer : Int}
    (hlt : start_layer < end_layer) : Views (a.record_allocation r start_layer end_layer) := by
  have hstore : ∀ r', r' ≠ r →
      (a.record_allocation r start_layer end_layer).store r' = a.store r' := by
    intro r' hne
    simp [record_allocation, hne]
  have hself : (a.record_allocation r start_layer end_layer).store r =
      (a.store r).set_layer_allocation start_layer end_layer := by
    simp [record_allocation]
  have hid : ∀ r', (a.record_allocation r start_layer end_layer).node_id r' = a.node_id r' := by
    intro r'
    by_cases hne : r' = r
    · subst hne
      unfold Allocator.node_id
      rw [hself]
      rfl
    · unfold Allocator.node_id
      rw [hstore r' hne]
  have hget : ∀ id, (a.record_allocation r start_layer end_layer).node_id_to_node.get? id =
      if a.node_id r = id then some r else a.node_id_to_node.get? id :=
    fun id => Dict.get?_insert _ _ _ _
  have halloc : ∀ id, (a.record_allocation r start_layer end_layer).node_allocation.get? id =
      if a.node_id r = id then some (start_layer, end_layer) else a.node_allocation.get? id :=
    fun id => Dict.get?_insert _ _ _ _
  -- No other node has the id of this one.
  have hother : ∀ id r', a.node_id r ≠ id → a.node_id_to_node.get? id = some r' → r' ≠ r := by
    rintro id r' hne hr' rfl
    exact hne (h.named id _ hr')
  refine ⟨?_, ?_, ?_, ?_, ?_, h.nodup⟩
  · intro id r' hr'
    rw [hget] at hr'
    rw [hid]
    split at hr'
    · rename_i he
      cases hr'
      exact he
    · exact h.named id r' hr'
  · intro id r' hr'
    rw [hget] at hr'
    rw [halloc]
    split at hr'
    · rename_i he
      cases hr'
      rw [if_pos he, hself]
      exact ⟨rfl, rfl⟩
    · rename_i hne
      rw [if_neg hne, hstore r' (hother id r' hne hr')]
      exact h.ranges id r' hr'
  · intro id p hp
    rw [halloc] at hp
    rw [hget]
    split at hp
    · rename_i he
      exact ⟨r, if_pos he⟩
    · rename_i hne
      rw [if_neg hne]
      exact h.registered id p hp
  · intro id s e hp
    rw [halloc] at hp
    split at hp
    · cases hp
      exact hlt
    · exact h.ascending id s e hp
  · intro r' hr'
    rw [hid, hget]
    split
    · rename_i he
      -- The listed node of this id is registered, so it is this one.
      have hreg := h.listed r' hr'
      rw [← he] at hreg
      obtain ⟨husable, _⟩ := hr
      rcases husable with hmine | ⟨hnew, _⟩
      · rw [hmine] at hreg
        exact hreg
      · rw [hnew] at hreg
        cases hreg
    · exact h.listed r' hr'

/-- The views after an allocation is forgotten. -/
theorem forget (h : Views a) (hr : a.node_id_to_node.get? (a.node_id r) = some r)
    (loads : List LayerLoad) :
    Views (({ a.forget_allocation r with layer_to_load := loads }).clear_node r) := by
  have hstore : ∀ r', r' ≠ r →
      (({ a.forget_allocation r with layer_to_load := loads }).clear_node r).store r' =
        a.store r' := by
    intro r' hne
    simp [forget_allocation, clear_node, update_layer_loads_heap, set_node, hne]
  have hself : (({ a.forget_allocation r with layer_to_load := loads }).clear_node r).store r =
      { (a.store r).clear_layer_allocation with is_active := false } := by
    simp [forget_allocation, clear_node, update_layer_loads_heap, set_node]
  have hid : ∀ r', (({ a.forget_allocation r with layer_to_load := loads }).clear_node r).node_id r' =
      a.node_id r' := by
    intro r'
    by_cases hne : r' = r
    · subst hne
      unfold Allocator.node_id
      rw [hself]
      rfl
    · unfold Allocator.node_id
      rw [hstore r' hne]
  have halloc : ∀ id,
      (({ a.forget_allocation r with layer_to_load := loads }).clear_node r).node_allocation.get? id =
        if a.node_id r = id then none else a.node_allocation.get? id :=
    fun id => Dict.get?_erase _ _ _
  refine ⟨?_, ?_, ?_, ?_, ?_, h.nodup⟩
  · intro id r' hr'
    rw [hid]
    exact h.named id r' hr'
  · intro id r' hr'
    have hr'' : a.node_id_to_node.get? id = some r' := hr'
    rw [halloc]
    split
    · rename_i he
      rw [← he, hr] at hr''
      cases hr''
      rw [hself]
      exact ⟨rfl, rfl⟩
    · rename_i hne
      have hrr : r' ≠ r := by
        rintro rfl
        exact hne (h.named id _ hr'')
      rw [hstore r' hrr]
      exact h.ranges id r' hr''
  · intro id p hp
    rw [halloc] at hp
    split at hp
    · cases hp
    · exact h.registered id p hp
  · intro id s e hp
    rw [halloc] at hp
    split at hp
    · cases hp
    · exact h.ascending id s e hp
  · intro r' hr'
    rw [hid]
    exact h.listed r' hr'

theorem sort_nodes (h : Views a) : Views a.sort_nodes := by
  have hperm : a.sort_nodes.nodes.Perm a.nodes := List.perm_insertionSort _ _
  refine ⟨h.named, h.ranges, h.registered, h.ascending, ?_, hperm.nodup_iff.mpr h.nodup⟩
  intro r hr
  exact h.listed r (hperm.mem_iff.mp hr)

/-- The views after a new node is declared. -/
theorem register (h : Views a) (hnew : a.node_id_to_node.get? (a.node_id r) = none)
    (hidle : Idle (a.store r)) : Views (a.register r) := by
  have hget : ∀ id, (a.register r).node_id_to_node.get? id =
      if a.node_id r = id then some r else a.node_id_to_node.get? id :=
    fun id => Dict.get?_insert _ _ _ _
  have hnone : a.node_allocation.get? (a.node_id r) = none :=
    h.unallocated_of_free ⟨Or.inr ⟨hnew, hidle⟩, hidle⟩
  refine ⟨?_, ?_, ?_, h.ascending, ?_, ?_⟩
  · intro id r' hr'
    rw [hget] at hr'
    split at hr'
    · rename_i he
      cases hr'
      exact he
    · exact h.named id r' hr'
  · intro id r' hr'
    rw [hget] at hr'
    split at hr'
    · rename_i he
      cases hr'
      subst he
      show (a.store r).start_layer = (a.node_allocation.get? (a.node_id r)).map Prod.fst ∧
        (a.store r).end_layer = (a.node_allocation.get? (a.node_id r)).map Prod.snd
      rw [hnone]
      exact hidle
    · exact h.ranges id r' hr'
  · intro id p hp
    rw [hget]
    split
    · exact ⟨r, rfl⟩
    · exact h.registered id p hp
  · intro r' hr'
    show (a.register r).node_id_to_node.get? (a.node_id r') = some r'
    rw [hget]
    rcases List.mem_append.mp hr' with hr' | hr'
    · have hlisted := h.listed r' hr'
      split
      · rename_i he
        rw [← he, hnew] at hlisted
        cases hlisted
      · exact hlisted
    · rw [List.mem_singleton.mp hr', if_pos rfl]
  · apply List.Nodup.append h.nodup (List.nodup_singleton r)
    rw [List.disjoint_singleton]
    intro hr'
    have hlisted := h.listed r hr'
    rw [hnew] at hlisted
    cases hlisted

/-- The views after a node without a range is taken out. -/
theorem unregister (h : Views a) {node_id : String}
    (hget : a.node_id_to_node.get? node_id = some r) (hidle : Idle (a.store r)) :
    Views (a.unregister node_id) := by
  have hget' : ∀ id, (a.unregister node_id).node_id_to_node.get? id =
      if node_id = id then none else a.node_id_to_node.get? id :=
    fun id => Dict.get?_erase _ _ _
  refine ⟨?_, ?_, ?_, h.ascending, ?_, h.nodup.sublist List.eraseP_sublist⟩
  · intro id r' hr'
    rw [hget'] at hr'
    split at hr'
    · cases hr'
    · exact h.named id r' hr'
  · intro id r' hr'
    rw [hget'] at hr'
    split at hr'
    · cases hr'
    · exact h.ranges id r' hr'
  · intro id p hp
    have hp' : a.node_allocation.get? id = some p := hp
    rw [hget']
    split
    · rename_i he
      subst he
      have hstart := (h.ranges _ r hget).1
      rw [hp', hidle.1] at hstart
      cases hstart
    · exact h.registered id p hp'
  · intro r' hr'
    have hmem : r' ∈ a.nodes := List.mem_of_mem_eraseP hr'
    show (a.unregister node_id).node_id_to_node.get? (a.node_id r') = some r'
    rw [hget']
    split
    · rename_i he
      -- The only node of the id is the one that was taken out.
      exfalso
      have hp : decide (a.node_id r' = node_id) = true := by simp [he]
      obtain ⟨x, l₁, l₂, _, hx, hsplit, hrest⟩ :=
        List.exists_of_eraseP (p := fun r => decide (a.node_id r = node_id)) hmem hp
      have hxmem : x ∈ a.nodes := by
        rw [hsplit]
        exact List.mem_append_right _ List.mem_cons_self
      have hxid : a.node_id x = node_id := by simpa using hx
      have hxr : x = r' := h.eq_of_node_id hxmem hmem (hxid.trans he)
      have hr'' : r' ∈ l₁ ++ l₂ := by
        rw [← hrest]
        exact hr'
      have hnodup := h.nodup
      rw [hsplit, List.nodup_middle, List.nodup_cons, hxr] at hnodup
      exact hnodup.1 hr''
    · exact h.listed r' hmem

end Views

theorem allocate_views {a : Allocator} {r : Ref} (h : Views a) (hr : Free a r)
    (start_layer end_layer : Int) : Views (stateOf (allocate r start_layer end_layer a)) := by
  by_cases hlt : start_layer < end_layer
  · have hv := h.record hr hlt
    by_cases hfits : a.fits start_layer end_layer
    · obtain ⟨loads, hrun, _⟩ := allocate_ok (r := r) hlt hfits
      rw [hrun]
      exact ⟨hv.named, hv.ranges, hv.registered, hv.ascending, hv.listed, hv.nodup⟩
    · obtain ⟨e, loads, hrun, _⟩ := allocate_outside (r := r) hlt hfits
      rw [hrun]
      exact ⟨hv.named, hv.ranges, hv.registered, hv.ascending, hv.listed, hv.nodup⟩
  · obtain ⟨e, hrun⟩ := allocate_empty (a := a) (r := r) (not_lt.mp hlt)
    rw [hrun]
    exact h

/-- What a deallocation ends with: nothing changed for a node without a range, and otherwise the
range is forgotten, unloaded and cleared. -/
theorem deallocate_cases (a : Allocator) (r : Ref) :
    ((a.store r).is_allocated = false ∧ deallocate r a = .ok () a) ∨
      ∃ start_layer end_layer loads, (a.store r).start_layer = some start_layer ∧
        (a.store r).end_layer = some end_layer ∧
        deallocate r a =
          .ok () (({ a.forget_allocation r with layer_to_load := loads }).clear_node r) ∧
        Changed (unhost (a.store r)) (layer_range start_layer end_layer) a.layer_to_load loads := by
  by_cases h : (a.store r).is_allocated = true
  · have hsome := h
    unfold Node.is_allocated at hsome
    rw [Bool.and_eq_true, Option.isSome_iff_exists, Option.isSome_iff_exists] at hsome
    obtain ⟨⟨s, hs⟩, e, he⟩ := hsome
    obtain ⟨loads, hrun, hchanged⟩ := deallocate_ok hs he
    exact Or.inr ⟨s, e, loads, hs, he, hrun, hchanged⟩
  · have hfalse : (a.store r).is_allocated = false := by simpa using h
    exact Or.inl ⟨hfalse, deallocate_unallocated hfalse⟩

theorem deallocate_moved (a : Allocator) (r : Ref) : Moved r a (stateOf (deallocate r a)) := by
  rcases deallocate_cases a r with ⟨_, hrun⟩ | ⟨s, e, loads, _, _, hrun, hchanged⟩
  · rw [hrun]
    exact Moved.refl r a
  · rw [hrun]
    refine ⟨⟨rfl, rfl, rfl, rfl, rfl, hchanged.length_eq, ?_⟩, rfl, ?_, fun _ _ => rfl⟩
    · intro r'
      by_cases h : r' = r
      · subst h
        simp [stateOf, forget_allocation, clear_node, update_layer_loads_heap, set_node, bare,
          Node.clear_layer_allocation]
      · simp [stateOf, forget_allocation, clear_node, update_layer_loads_heap, set_node, h]
    · intro r' h
      simp [stateOf, forget_allocation, clear_node, update_layer_loads_heap, set_node, h]

theorem deallocate_views {a : Allocator} {r : Ref} (h : Views a) (hr : Usable a r) :
    Views (stateOf (deallocate r a)) := by
  rcases deallocate_cases a r with ⟨_, hrun⟩ | ⟨s, e, loads, hs, _, hrun, _⟩
  · rw [hrun]
    exact h
  · rw [hrun]
    rcases hr with hreg | ⟨_, hidle⟩
    · exact h.forget hreg loads
    · rw [hidle.1] at hs
      cases hs

/-- A deallocated node can be allocated again. -/
theorem deallocate_free {a : Allocator} {r : Ref} (h : Views a) (hr : Usable a r) :
    Free (stateOf (deallocate r a)) r := by
  rcases deallocate_cases a r with ⟨hfalse, hrun⟩ | ⟨s, e, loads, hs, _, hrun, _⟩
  · rw [hrun]
    refine ⟨hr, ?_⟩
    rcases hr with hreg | ⟨_, hidle⟩
    · rcases hp : a.node_allocation.get? (a.node_id r) with _ | p
      · exact h.idle_of_unallocated hreg hp
      · have hranges := h.ranges _ r hreg
        rw [hp] at hranges
        simp [Node.is_allocated, hranges] at hfalse
    · exact hidle
  · have hmoved := deallocate_moved a r
    rw [hrun] at hmoved ⊢
    refine ⟨?_, ?_⟩
    · rcases hr with hreg | ⟨_, hidle⟩
      · left
        rw [hmoved.alike.node_id r]
        exact hreg
      · rw [hidle.1] at hs
        cases hs
    · simp [stateOf, Idle, forget_allocation, clear_node, update_layer_loads_heap, set_node,
        Node.clear_layer_allocation]

end scheduling.layer_allocation

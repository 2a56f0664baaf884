import ReactiveGraph.Model.Typed
import ReactiveGraph.Proof.Values

/-!
# Typed references

A `NodeRef<T>` promises that the value at its id, if there is one, has the type `T`; a downcast
fails silently where it does not. Every value at an id has the type of some builder call that made a
node with that id, since implementations give what their builder call says and senders send it. The
promise is kept, then, when the builder calls that agree on the id agree on the type.

**The builders do not see to that themselves.** An id is a scope and the hash of a key. The scope of
a node that implements a trait is the implementing type, which fixes the output; the scope of a
closure is a marker that says nothing of it. So two closure sources with one key and two types get
one id, the second is not registered, and its reference finds the first one's values. `OneType` is
the condition that this does not occur, `NoCollision` that different keys have different hashes;
both are about the builder calls of the run and not about what the engine does with them.

The invariant is `Promising`: every value there is, on its way or still to be made has the type of a
builder call with its id. It holds in every run in which values are sent through references of
sources, with their type; only the last step, from some builder call to the one whose reference is
used, needs the conditions.
-/

namespace ReactiveGraph

open Engine

variable {output : NodeType → TypeId} {K V : Type*} [AnyValue V] {hash : K → UInt64}

/-! ## What a builder call makes -/

namespace Build

/-- The value has the type of a builder call with its id. Which one does not matter until the calls
are known to agree. -/
def Promised (hash : K → UInt64) (built : List (Build output K V)) (id : NodeId) (value : V) :
    Prop := ∃ b ∈ built, (b.nodeRef hash).id = id ∧ AnyValue.typeId value = b.type

theorem Promised.mono {built built' : List (Build output K V)} (h : built ⊆ built') {id : NodeId}
    {value : V} (hv : Promised hash built id value) : Promised hash built' id value := by
  obtain ⟨b, hb, hid, htype⟩ := hv
  exact ⟨b, h hb, hid, htype⟩

/-- A function into a type gives values of the type: that is what its result type says. -/
theorem typeId_of_map {type : TypeId} (f : Into V type) {args : Option (List V)} {value : V}
    (h : args.map f.val = some value) : AnyValue.typeId value = type := by
  obtain ⟨l, -, rfl⟩ := Option.map_eq_some_iff.mp h
  exact f.property l

/-- Whatever the implementation gives has the type of the reference. A node gives values in one way at
most, depending on its kind. -/
theorem gives_type (b : Build output K V) (id : NodeId) (deps : List NodeId) :
    b.nodeImpl.Gives (fun _ value => AnyValue.typeId value = b.type) id deps := by
  cases b with
  | closureSource key type callback =>
    refine .of_activate (fun _ => rfl) (fun _ => rfl) fun values hvalues => ?_
    obtain ⟨boxes, -, rfl⟩ := Option.map_eq_some_iff.mp hvalues
    exact boxes.property
  | source node key callback =>
    refine .of_activate (fun _ => rfl) (fun _ => rfl) fun values hvalues => ?_
    rw [← Option.some.inj hvalues]
    exact callback.property
  | closureCompute key type deps f =>
    exact .of_compute rfl (fun _ => rfl) fun store value h => typeId_of_map f h
  | compute node key deps f =>
    exact .of_compute rfl (fun _ => rfl) fun store value h => typeId_of_map f h
  | closureAsyncCompute key type deps f policy groupId =>
    exact .of_computeAsync rfl (fun _ => rfl) fun store value h => typeId_of_map f h
  | asyncCompute node key deps f policy groupId =>
    exact .of_computeAsync rfl (fun _ => rfl) fun store value h => typeId_of_map f h
  | closureSink key deps =>
    exact .of_activate (fun _ => rfl) (fun _ => rfl) fun values h => nomatch h
  | sink node key deps =>
    exact .of_activate (fun _ => rfl) (fun _ => rfl) fun values h => nomatch h

/-- The descriptor of a builder call gives what the call promises, at the id and along the
dependencies it is registered with. -/
theorem gives_descriptor {built : List (Build output K V)} {b : Build output K V} (hb : b ∈ built) :
    (b.descriptor hash).nodeImpl.Gives (Promised hash built) (b.descriptor hash).id
      (b.descriptor hash).deps := by
  have h := b.gives_type (b.descriptor hash).id (b.descriptor hash).deps
  exact ⟨fun values hvalues value hv => ⟨b, hb, rfl, h.activate values hvalues value hv⟩,
    fun store value hv => ⟨b, hb, rfl, h.compute store value hv⟩,
    fun store value hv => ⟨b, hb, rfl, h.computeAsync store value hv⟩⟩

end Build

/-! ## Scopes -/

theorem Scope.typeId_injective : Function.Injective Scope.typeId := by
  intro s s' h
  cases s with
  | node type =>
    have hforeign := type.foreign
    cases s' with
    | node type' =>
      obtain ⟨id, _⟩ := type
      obtain ⟨id', _⟩ := type'
      obtain rfl : id = id' := h
      rfl
    | _ =>
      simp only [Scope.typeId] at h
      rw [h] at hforeign
      exact absurd hforeign (by decide)
  | _ =>
    cases s' with
    | node type' =>
      have hforeign := type'.foreign
      simp only [Scope.typeId] at h
      rw [← h] at hforeign
      exact absurd hforeign (by decide)
    | _ => first | rfl | exact absurd h (by decide)

/-! ## Runs -/

/-- The builder calls of a call. -/
def TypedCall.builds : TypedCall output K V → List (Build output K V)
  | .sketch b | .build b => [b]
  | .merge bs => bs
  | _ => []

/-- No two keys of the builder calls share a hash. The source relies on this of its hash, without a
check. -/
def NoCollision (hash : K → UInt64) (built : List (Build output K V)) : Prop :=
  ∀ b ∈ built, ∀ b' ∈ built, hash b.key = hash b'.key → b.key = b'.key

/-- Builder calls with the same scope and the same key have the same output type. Of nodes that
implement a trait this holds of itself, since the scope is the type; of closures it is up to the
client. -/
def OneType (built : List (Build output K V)) : Prop :=
  ∀ b ∈ built, ∀ b' ∈ built, b.scope = b'.scope → b.key = b'.key → b.type = b'.type

/-- Builder calls with the same id have the same output type: an equal id is an equal scope and an
equal hash, and so an equal key. -/
theorem OneType.of_id {built : List (Build output K V)} (h : OneType built)
    (hhash : NoCollision hash built) {b b' : Build output K V} (hb : b ∈ built) (hb' : b' ∈ built)
    (hid : (b.nodeRef hash).id = (b'.nodeRef hash).id) : b.type = b'.type := by
  obtain ⟨hscope, hkey⟩ := NodeId.mk.inj hid
  exact h b hb b' hb' (Scope.typeId_injective hscope) (hhash b hb b' hb' hkey)

/-- A source builder has returned the reference. Senders are made for these only. -/
def TypedSession.HasSource (hash : K → UInt64) (s : TypedSession output K V) (r : NodeRef) : Prop :=
  ∃ b ∈ s.built, b.kind = .source ∧ b.nodeRef hash = r

/-- A call that goes around the builders, or around the types of references and senders. -/
def Call.isRaw : Call V → Bool
  | .register _ | .merge _ | .send _ _ | .update _ _ => true
  | _ => false

/-- Values are sent through references and senders of sources, with the type they have; nodes are
registered by builders. The source's signatures ask for as much. -/
def TypedCall.Typed (hash : K → UInt64) (s : TypedSession output K V) : TypedCall output K V → Prop
  | .send r value | .update r value => s.HasSource hash r ∧ AnyValue.typeId value = r.type
  | .call c => c.isRaw = false
  | _ => True

/-- The promise of every reference a builder has returned: the value there is has its type. An empty
place promises nothing. -/
def TypedSession.Sound (hash : K → UInt64) (s : TypedSession output K V) : Prop :=
  ∀ b ∈ s.built, s.session.engine.graph.valueStore.contains (b.nodeRef hash).id →
    (s.session.engine.graph.valueStore.get (b.nodeRef hash)).isSome

namespace TypedSession

theorem built_apply (hash : K → UInt64) (s : TypedSession output K V) (c : TypedCall output K V) :
    (s.apply hash c).built = s.built ++ c.builds := by
  cases c with
  | sketch b => rfl
  | build b => rfl
  | merge bs => rfl
  | _ => exact (List.append_nil _).symm

/-- Every value has the type of a builder call with its id, wherever it is: in the store, on its
way, in a task, or in an implementation that can still make it. -/
def Promising (hash : K → UInt64) (s : TypedSession output K V) : Prop :=
  Carries (Build.Promised hash s.built) s.session.engine

theorem promising_apply {s : TypedSession output K V} (h : s.Promising hash)
    {c : TypedCall output K V} (hc : c.Typed hash s) : (s.apply hash c).Promising hash := by
  have hmono : Carries (Build.Promised hash (s.apply hash c).built) s.session.engine := by
    refine Carries.mono h fun id value hv => hv.mono ?_
    rw [built_apply]
    exact List.subset_append_left _ _
  have hsent : ∀ (r : NodeRef) (value : V), s.HasSource hash r → AnyValue.typeId value = r.type →
      Build.Promised hash s.built r.id value := by
    intro r value hr htype
    obtain ⟨b, hb, -, rfl⟩ := hr
    exact ⟨b, hb, rfl, htype⟩
  cases c with
  | sketch b => exact hmono
  | build b =>
    exact Session.carries_apply hmono (c := .register (b.descriptor hash))
      (Build.gives_descriptor (List.mem_append_right _ (List.mem_singleton_self b)))
  | merge bs =>
    refine Session.carries_apply hmono (c := .merge (bs.map (Build.descriptor hash))) ?_
    intro desc hdesc
    obtain ⟨b, hb, rfl⟩ := List.mem_map.mp hdesc
    exact Build.gives_descriptor (List.mem_append_right _ hb)
  | send r value =>
    exact Session.carries_apply hmono (c := .send r.id value) (hsent r value hc.1 hc.2)
  | update r value =>
    exact Session.carries_apply hmono (c := .update r.id value) (hsent r value hc.1 hc.2)
  | call c =>
    have hraw : c.isRaw = false := hc
    refine Session.carries_apply hmono (c := c) ?_
    -- The calls that bring in values or implementations are the raw ones.
    cases c with
    | register _ => exact Bool.noConfusion hraw
    | merge _ => exact Bool.noConfusion hraw
    | send _ _ => exact Bool.noConfusion hraw
    | update _ _ => exact Bool.noConfusion hraw
    | _ => trivial

/-- **Where builder calls with one id have one type, references are sound.** The value has the type
of some call with the id, which is that of every other. -/
theorem Promising.sound {s : TypedSession output K V} (h : s.Promising hash)
    (hhash : NoCollision hash s.built) (hone : OneType s.built) : s.Sound hash := by
  intro b hb hcontains
  obtain ⟨value, hvalue⟩ := ValueStore.contains_iff.mp hcontains
  obtain ⟨b', hb', hid, htype⟩ := Carries.store h _ value hvalue
  have hsame : b'.type = b.type := hone.of_id hhash hb' hb hid
  rw [ValueStore.get, hvalue, Option.bind_some, AnyValue.downcastRef, if_pos]
  · rfl
  · rw [htype, hsame]
    rfl

theorem Promising.init : (init : TypedSession output K V).Promising hash := Carries.new

end TypedSession

/-- **References are sound in every run** in which keys do not collide, values are sent with their
types, and builder calls with the same scope and key have the same output type.

Along the run by `Promising`, whose step is the rule for values (`Session.carries_apply`); the
builder calls of the run are collected on the way, so a promise made early is read with the calls
made later. -/
theorem typed_refs_sound (hash : K → UInt64) (calls : List (TypedCall output K V))
    (hhash : NoCollision hash (calls.flatMap TypedCall.builds))
    (htyped : Runs.AllSteps (TypedSession.apply hash) (fun s c => c.Typed hash s) .init calls)
    (hone : OneType (calls.flatMap TypedCall.builds)) :
    Runs.Always (TypedSession.apply hash) (TypedSession.Sound hash) .init calls := by
  have hgen : ∀ (calls : List (TypedCall output K V)) (s : TypedSession output K V),
      s.Promising hash → NoCollision hash (s.built ++ calls.flatMap TypedCall.builds) →
        OneType (s.built ++ calls.flatMap TypedCall.builds) →
          Runs.AllSteps (TypedSession.apply hash) (fun s c => c.Typed hash s) s calls →
            Runs.Always (TypedSession.apply hash) (TypedSession.Sound hash) s calls := by
    intro calls
    -- with the builder calls so far: those of the rest are known from the start, since the
    -- conditions are about all of them
    induction calls with
    | nil =>
      intro s hs hhash hone _
      rw [List.flatMap_nil, List.append_nil] at hhash hone
      exact hs.sound hhash hone
    | cons c calls ih =>
      intro s hs hhash hone htyped
      refine ⟨hs.sound (fun b hb b' hb' => hhash b (List.mem_append_left _ hb) b'
        (List.mem_append_left _ hb')) fun b hb b' hb' => hone b (List.mem_append_left _ hb) b'
          (List.mem_append_left _ hb'), ?_⟩
      rw [List.flatMap_cons, ← List.append_assoc, ← TypedSession.built_apply hash] at hhash hone
      exact ih _ (TypedSession.promising_apply hs htyped.1) hhash hone htyped.2
  exact hgen calls .init .init (by simpa [TypedSession.init] using hhash)
    (by simpa [TypedSession.init] using hone) htyped

/-! ## Runs that can be checked -/

instance (hash : K → UInt64) (s : TypedSession output K V) (r : NodeRef) :
    Decidable (s.HasSource hash r) :=
  inferInstanceAs (Decidable (∃ b ∈ s.built, b.kind = .source ∧ b.nodeRef hash = r))

instance (hash : K → UInt64) (s : TypedSession output K V) :
    ∀ c : TypedCall output K V, Decidable (c.Typed hash s)
  | .send _ _ | .update _ _ => inferInstanceAs (Decidable (_ ∧ _))
  | .call c => inferInstanceAs (Decidable (c.isRaw = false))
  | .sketch _ | .build _ | .merge _ => .isTrue trivial

instance (hash : K → UInt64) (s : TypedSession output K V) : Decidable (s.Sound hash) :=
  inferInstanceAs (Decidable (∀ b ∈ s.built, _ → _))

instance [DecidableEq K] (hash : K → UInt64) (built : List (Build output K V)) :
    Decidable (NoCollision hash built) := inferInstanceAs (Decidable (∀ b ∈ built, _))

instance [DecidableEq K] (built : List (Build output K V)) : Decidable (OneType built) :=
  inferInstanceAs (Decidable (∀ b ∈ built, _))

namespace Sample

/-- Values of two types, with an id each, to run the builders with. -/
inductive Datum where
  | number (n : ℕ)
  | flag (b : Bool)

instance : AnyValue Datum where
  typeId
    | .number _ => 5
    | .flag _ => 6

/-- A source of numbers and a node that says whether there is one. The keys differ, so the condition
holds. -/
def parityRun : List (TypedCall (fun _ => 5) ℕ Datum) :=
  [.build (.closureSource 0 5 none),
    .build (.closureCompute 1 6 [⟨⟨0, 0⟩, 5⟩] ⟨fun _ => .flag true, fun _ => rfl⟩),
    .build (.closureSink 2 [⟨⟨1, 1⟩, 6⟩]), .call (.activateSink ⟨3, 2⟩),
    .update ⟨⟨0, 0⟩, 5⟩ (.number 1), .call (.runCycle default)]

end Sample

open Sample

theorem typed_refs_sound_parityRun :
    Runs.Always (TypedSession.apply UInt64.ofNat) (TypedSession.Sound UInt64.ofNat) .init
      parityRun :=
  typed_refs_sound UInt64.ofNat parityRun (by decide +kernel) (by decide +kernel)
    (by decide +kernel)

namespace Sample

/-- A source of numbers and a source of flags with one key. Both get an id of the same scope, so the
second is not registered; its reference finds the number. -/
def sharedKey : List (TypedCall (fun _ => 5) ℕ Datum) :=
  [.build (.closureSource 0 5 none), .build (.closureSource 0 6 none),
    .update ⟨⟨0, 0⟩, 5⟩ (.number 1), .call (.runCycle default)]

end Sample

theorem second_source_unsound :
    NoCollision UInt64.ofNat (sharedKey.flatMap TypedCall.builds) ∧
    Runs.AllSteps (TypedSession.apply UInt64.ofNat) (fun s c => c.Typed UInt64.ofNat s) .init
      sharedKey ∧
    ¬ Runs.Always (TypedSession.apply UInt64.ofNat) (TypedSession.Sound UInt64.ofNat) .init
      sharedKey :=
  ⟨by decide +kernel, by decide +kernel, by decide +kernel⟩

end ReactiveGraph

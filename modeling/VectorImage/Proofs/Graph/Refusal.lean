import VectorImage.Proofs.Call.Refusal
import VectorImage.Proofs.Graph.Likeness
import VectorImage.Proofs.Graph.Sessions

/-!
A builder forgets the calls that are refused. It has a node for every name that the nesting check
knows and a frame for every scope, so that it performs whatever is accepted: a refused call is never
one that fails half way.
-/

set_option autoImplicit false
set_option relaxedAutoImplicit false

namespace VectorImage

namespace GraphBuilder

variable {n m : Nesting} {b b' c : GraphBuilder} {call : Call} {calls rest : List Call}

/-- The groups that a builder remembers are those that the nesting check has seen end. -/
private theorem Regular.names_step (h : b.Regular n) (hnames : b.exports.map Prod.fst = n.exported)
    {gradients : Nat} (haccept : Nesting.Accepted gradients n call m) {reply : Reply}
    (hbuilds : b.Builds call b' reply) : b'.exports.map Prod.fst = m.exported := by
  cases hbuilds with
  | @endGroup attrs children frames hframes =>
    cases haccept with
    | endGroup exportId scopes hscopes =>
      have hopened := h.scopes
      rw [hframes, hscopes, List.map_cons] at hopened
      obtain ⟨hscope, -⟩ := List.cons.inj hopened
      obtain rfl : attrs.exportId = exportId := Scope.group.inj hscope
      rw [exports_remember, exports_attach, List.map_append, hnames, List.map_map]
      exact congrArg (· ++ n.exported) (List.map_id _)
  | init | document | gradient | beginGroup | beginMask | maskContent =>
    cases haccept
    exact hnames
  | clip | endMask | shape | image | text | use =>
    cases haccept
    rw [exports_attach]
    exact hnames

/-- An accepted call can be performed, if there is an id for one more gradient. -/
private theorem Regular.ready (h : b.Regular n) (hnames : b.exports.map Prod.fst = n.exported)
    (hroom : b.gradients.size < 2 ^ 32) {gradients : Nat}
    (haccept : Nesting.Accepted gradients n call m) : b.Ready call := by
  rcases h.ready_or haccept with hready | ⟨g, rfl⟩ | ⟨u, rfl⟩
  · exact hready
  · obtain ⟨table, id, hintern⟩ := b.gradients.intern_progress g hroom
    exact ⟨(table, id), hintern⟩
  · cases haccept with
    | use _ _ htarget =>
      have hname := htarget.exported
      rw [← hnames] at hname
      obtain ⟨e, he, hsame⟩ := List.mem_map.mp hname
      cases hlookup : b.exports.lookup u.target with
      | some target => exact ⟨target, hlookup⟩
      | none =>
        have hne := List.lookup_eq_none_iff.mp hlookup e he
        rw [hsame, bne_self_eq_false] at hne
        cases hne

/-- A call registers one gradient at most. -/
private theorem Builds.gradients_size_le {reply : Reply} (h : b.Builds call b' reply)
    (hroom : b.gradients.size < 2 ^ 32) : b'.gradients.size ≤ b.gradients.size + 1 := by
  cases h with
  | gradient hintern =>
    obtain ⟨-, -, -, hsize⟩ := CanonicalTable.intern_ok (Nat.le_of_lt hroom) hintern
    exact hsize
  | endGroup =>
    rw [gradients_remember, gradients_attach]
    exact Nat.le_succ _
  | init | document | beginGroup | beginMask | maskContent => exact Nat.le_succ _
  | clip | endMask | shape | image | text | use =>
    rw [gradients_attach]
    exact Nat.le_succ _

/-- Builders that hold the same, the first at the nesting `n`, with ids for the gradients that may
come. -/
structure Paired (stamps stamps' : List Nat) (calls : List Call) (n : Nesting)
    (b c : GraphBuilder) : Prop where
  orderly : Orderly stamps ⟨n, b⟩
  names : b.exports.map Prod.fst = n.exported
  alike : b.Alike c
  coherent : ∃ items, c.Coherent stamps' items
  room : b.gradients.size + calls.length ≤ 2 ^ 32

/-- Both perform what is accepted, with the same reply. -/
private theorem Paired.perform {stamps stamps' : List Nat}
    (h : Paired stamps stamps' (call :: rest) n b c)
    (haccept : Nesting.Accepted b.gradients.size n call m) : ∃ b' c' reply,
      b.perform call = .ok (b', reply) ∧ c.perform call = .ok (c', reply) ∧
        Paired stamps stamps' rest m b' c' := by
  obtain ⟨⟨hsound, hregular, items, hcoherent⟩, hnames, halike, ⟨items', hcoherent'⟩, hroom⟩ := h
  rw [List.length_cons] at hroom
  have hfits : b.gradients.size < 2 ^ 32 := by omega
  obtain ⟨b', reply, hperform⟩ := perform_of_ready (hregular.ready hnames hfits haccept)
  obtain ⟨hbuilds, hafter⟩ := perform_spec hcoherent hperform
  obtain ⟨c', reply', hperform'⟩ := perform_of_ready (halike.ready hbuilds)
  obtain ⟨hbuilds', hafter'⟩ := perform_spec hcoherent' hperform'
  obtain ⟨halike', rfl⟩ := halike.step hbuilds hbuilds'
  have hsize : b'.gradients.size ≤ b.gradients.size + 1 := hbuilds.gradients_size_le hfits
  exact ⟨b', c', reply, hperform, hperform',
    ⟨hsound.step haccept, hregular.step hsound haccept hbuilds, hafter⟩,
    hregular.names_step hnames haccept hbuilds, halike', hafter', by omega⟩

private theorem Paired.reject {stamps stamps' : List Nat}
    (h : Paired stamps stamps' (call :: rest) n b c) :
    Paired stamps stamps' rest (n.reject call) b c := by
  obtain ⟨hsound, hregular, hcoherent⟩ := h.orderly
  have hroom := h.room
  rw [List.length_cons] at hroom
  refine ⟨⟨hsound.reject call, hregular.reject call, hcoherent⟩, ?_, h.alike, h.coherent, by omega⟩
  rw [h.names]
  unfold Nesting.reject
  split <;> rfl

/-- Builders that hold the same stay in step. -/
theorem inStep (stamps stamps' : List Nat) : backend.InStep (Paired stamps stamps') where
  count h := congrArg CanonicalTable.size h.alike.gradients
  reject h := h.reject
  perform h haccept := h.perform haccept

/-- A builder forgets the calls that are refused, whatever earlier builds have left to share: what
it builds of the calls that it takes is the same tree. -/
theorem forgets {stamps stamps' : List Nat} {seed seed' : NodeCache} (hseed : seed.Grown stamps)
    (hseed' : seed'.Grown stamps') {stamp stamp' : Nat} (hstamp : stamp ∉ stamps)
    (hstamp' : stamp' ∉ stamps') (shareNodes shareNodes' : Bool)
    (hroom : calls.length ≤ 2 ^ 32) :
    backend.Forgets GraphImage.Alike (.start stamp shareNodes seed)
      (.start stamp' shareNodes' seed') calls := by
  obtain ⟨items, hfounded⟩ := hseed.founded
  obtain ⟨items', hfounded'⟩ := hseed'.founded
  have hstart : Paired (stamp :: stamps) (stamp' :: stamps') calls .start
      (start stamp shareNodes seed) (start stamp' shareNodes' seed') := by
    refine ⟨⟨Nesting.sound_start, regular_start stamp shareNodes seed, items,
        coherent_start hfounded hstamp shareNodes⟩, rfl, alike_start ..,
      ⟨items', coherent_start hfounded' hstamp' shareNodes'⟩, ?_⟩
    show 0 + calls.length ≤ 2 ^ 32
    omega
  exact (inStep _ _).forgets (fun h _ => h.alike.complete) hstart

end GraphBuilder

end VectorImage

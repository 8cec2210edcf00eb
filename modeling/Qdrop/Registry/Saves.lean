import Qdrop.Registry
import Qdrop.WriteAtomic

/-!
# `peers.toml`, one system call at a time

`registry_updates` takes the load and the save of an operation on the registry to be one step each.  Here they are
the system calls of `Peers::load_from` and `Peers::save_to`, of any number of processes, interleaved in any way:
`peers_toml_updates` says that every process loads, and the file always holds, the document that some of the
operations make one after another, also after a power failure, and that without a power failure these are saved
operations in the order of their renames.
-/

namespace Qdrop

open Lib

/-- `toml::to_string_pretty` and `toml::from_str` at `Peers`. -/
structure TomlCodec where
  toStringPretty : Peers → Bytes
  fromStr : Bytes → Except String Peers

/-- What `Peers::load_from` makes of the content of the file. -/
def TomlCodec.view (toml : TomlCodec) : Option Bytes → PeersFile
  | none => .absent
  | some text =>
    match toml.fromStr text with
    | .ok doc => .document doc
    | .error err => .unreadable err

/-- What an operation saves after it has loaded `old`: `load_from`, the change, `save_to`. -/
def TomlCodec.save (toml : TomlCodec) (encode : Key → String) (old : Option Bytes) (op : RegOp) : Option Bytes :=
  match (toml.view old).load with
  | .ok doc => (op.change encode doc).map toml.toStringPretty
  | .error _ => none

/-- The tasks on the file `T` are operations on the registry. -/
def EditsOnly {β : Type} (T : Target) : StoreEvent β → Prop
  | .start T' _ op => T'.path = T.path → ∃ edit, op = .edit edit
  | _ => True

variable {toml : TomlCodec} {encode : Key → String}

/-- A save and the load after it are a change of the document, when the codec reads the document back. -/
theorem TomlCodec.view_save {old : Option Bytes} {op : RegOp} {text : Bytes}
    (hs : toml.save encode old op = some text) :
    ∃ doc, (op.update encode (toml.view old)).getD (toml.view old) = .document doc ∧
      (toml.fromStr (toml.toStringPretty doc) = .ok doc → toml.view (some text) = .document doc) := by
  unfold TomlCodec.save at hs
  split at hs
  · rename_i doc hload
    obtain ⟨doc', hch, rfl⟩ := Option.map_eq_some_iff.1 hs
    refine ⟨doc', by simp [RegOp.update, hload, hch], fun hrt => ?_⟩
    simp only [TomlCodec.view, hrt]
  · cases hs

/-- An operation that saves nothing changes nothing. -/
theorem TomlCodec.save_none {old : Option Bytes} {op : RegOp} (hs : toml.save encode old op = none) :
    (op.update encode (toml.view old)).getD (toml.view old) = toml.view old := by
  unfold TomlCodec.save at hs
  split at hs
  · rename_i doc hload
    rw [Option.map_eq_none_iff] at hs
    simp [RegOp.update, hload, hs]
  · rename_i err hload
    simp [RegOp.update, hload]

section

variable {initial : Option Bytes} {ok : RegOp → Prop}
  (htoml : ∀ ops doc, (∀ op ∈ ops, ok op) → applyOps encode (toml.view initial) ops = .document doc →
    toml.fromStr (toml.toStringPretty doc) = .ok doc)
include htoml

/-- One more save. -/
private theorem view_saved {old : Option Bytes} {op : RegOp} {text : Bytes} {ops : List RegOp}
    (hops : ∀ op ∈ ops, ok op) (hop : ok op) (hold : toml.view old = applyOps encode (toml.view initial) ops)
    (hs : toml.save encode old op = some text) :
    toml.view (some text) = applyOps encode (toml.view initial) (ops ++ [op]) := by
  obtain ⟨doc, hdoc, hview⟩ := TomlCodec.view_save hs
  have hsnoc : applyOps encode (toml.view initial) (ops ++ [op]) = .document doc := by
    rw [applyOps, serially_snoc, ← hdoc, hold]
  rw [hsnoc]
  refine hview (htoml (ops ++ [op]) doc (fun o ho => ?_) hsnoc)
  rcases List.mem_append.1 ho with ho | ho
  · exact hops o ho
  · rw [List.mem_singleton.1 ho]
    exact hop

/-- Saves one after another are operations on the document one after another. -/
private theorem view_serially (ks : List (FileOp RegOp)) (hks : ∀ k ∈ ks, ∃ op, k = .edit op ∧ ok op) :
    ∃ ops, ks = ops.map .edit ∧ (∀ op ∈ ops, ok op) ∧
      toml.view (serially (fileUpdate (toml.save encode)) initial ks) =
        applyOps encode (toml.view initial) ops := by
  induction ks using List.reverseRecOn with
  | nil => exact ⟨[], rfl, by simp, rfl⟩
  | append_singleton ks k ih =>
    obtain ⟨ops, rfl, hops, hview⟩ := ih fun k' hk' => hks k' (List.mem_append_left _ hk')
    obtain ⟨op, rfl, hop⟩ := hks k (List.mem_append_right _ (List.mem_singleton.2 rfl))
    refine ⟨ops ++ [op], by simp, ?_, ?_⟩
    · intro o ho
      rcases List.mem_append.1 ho with ho | ho
      · exact hops o ho
      · rw [List.mem_singleton.1 ho]
        exact hop
    · rw [serially_snoc]
      cases hs : toml.save encode (serially (fileUpdate (toml.save encode)) initial (ops.map .edit)) op with
      | some text =>
        simp only [fileUpdate, FileOp.update, hs, Option.map_some, Option.getD_some]
        exact view_saved htoml hops hop hview hs
      | none =>
        simp only [fileUpdate, FileOp.update, hs, Option.map_none, Option.getD_none]
        have hsame := TomlCodec.save_none hs
        rw [hview] at hsame
        rw [hview, applyOps, serially_snoc]
        exact hsame.symm

end

/-- For every interleaving of the system calls in which no two overlapping saves share the process id, and with
calls that fail, processes that are killed and power failures: what any process loads, and what the file holds, is
what some of the operations of the run make of the initial document one after another.  Without a power failure these
are saved operations, in the order of their renames. -/
theorem peers_toml_updates (toml : TomlCodec) (encode : Key → String) (fs : FileSys PathBuf)
    (es : List (StoreEvent RegOp)) (s : Store RegOp) (T : Target)
    (hr : Run (storeStep (toml.save encode)) Apart (Store.start fs) es s) (hedits : ∀ e ∈ es, EditsOnly T e)
    (htoml : ∀ ops doc, (∀ op ∈ ops, Started es T.path (.edit op)) →
      applyOps encode (toml.view (fs.read T.path)) ops = .document doc →
      toml.fromStr (toml.toStringPretty doc) = .ok doc) :
    (∃ ops, (∀ op ∈ ops, Started es T.path (.edit op)) ∧
      toml.view (s.disk.fs.read T.path) = applyOps encode (toml.view (fs.read T.path)) ops) ∧
    (∀ e ∈ s.loaded, e.1.path = T.path → ∃ ops, (∀ op ∈ ops, Started es T.path (.edit op)) ∧
      toml.view e.2 = applyOps encode (toml.view (fs.read T.path)) ops) ∧
    ((∀ e ∈ es, Powered e) → ∃ kept, (kept.map FileOp.edit).Sublist (s.savedAt T.path) ∧
      toml.view (s.disk.fs.read T.path) = applyOps encode (toml.view (fs.read T.path)) kept) := by
  have hedit : ∀ op, Started es T.path op → ∃ edit, op = .edit edit := by
    rintro op ⟨T', pid, hmem, hT⟩
    exact hedits _ hmem hT
  have hkind : ∀ v, Derived (toml.save encode) fs.read (Started es) T.path v →
      ∃ ops, (∀ op ∈ ops, Started es T.path (.edit op)) ∧
        toml.view v = applyOps encode (toml.view (fs.read T.path)) ops := by
    intro v hv
    refine hv.kind (K := fun v => ∃ ops, (∀ op ∈ ops, Started es T.path (.edit op)) ∧
      toml.view v = applyOps encode (toml.view (fs.read T.path)) ops) ⟨[], by simp, rfl⟩ ?_
    rintro old op text ⟨ops, hops, hold⟩ hst hs
    obtain ⟨edit, rfl⟩ := hedit op hst
    refine ⟨ops ++ [edit], fun o ho => ?_, view_saved htoml hops hst hold hs⟩
    rcases List.mem_append.1 ho with ho | ho
    · exact hops o ho
    · rw [List.mem_singleton.1 ho]
      exact hst
  obtain ⟨hfile, hload⟩ := write_atomic_whole _ fs es s hr
  refine ⟨hkind _ (hfile T), fun e he heT => hkind _ (heT ▸ hload e he), fun hpow => ?_⟩
  have hr' : Run (storeStep (toml.save encode)) (fun s e => Apart s e ∧ Powered e) (Store.start fs) es s :=
    hr.mem.mono fun s e h => ⟨h.1, hpow e h.2⟩
  obtain ⟨kept, hsub, heq⟩ := (write_atomic_refines _ fs es s hr' T).2
  obtain ⟨ops, rfl, -, hview⟩ := view_serially htoml kept fun k hk => by
    have hst := saved_started hr T k (hsub.subset hk)
    obtain ⟨edit, rfl⟩ := hedit k hst
    exact ⟨edit, rfl, hst⟩
  exact ⟨ops, hsub, heq ▸ hview⟩

/-! ### Two processes on one registry -/

/-- The TOML of an entry with plain names, no label and no address. -/
private def entryToml (p : Peer) : String :=
  "[[peer]]\nname = \"" ++ p.name ++ "\"\ndevice_id = \"" ++ p.deviceId ++ "\"\npublic_key = \"" ++ p.publicKey ++
    "\"\n" ++ if p.authorized then "authorized = true\n" else ""

private def docToml (doc : Peers) : Bytes :=
  asBytes (if doc.peers = [] then "peer = []\n" else "\n".intercalate (doc.peers.map entryToml))

private def plain (name id : String) (authorized : Bool) : Peer := ⟨name, id, "", none, authorized, [], none, none⟩

private def plainDocs : List Peers :=
  [⟨[plain "laptop" "l" false, plain "phone" "p" true]⟩, ⟨[plain "laptop" "l" false, plain "phone" "p" false]⟩,
    ⟨[plain "phone" "p" true]⟩, ⟨[plain "phone" "p" false]⟩]

private def plainToml : TomlCodec where
  toStringPretty := docToml
  fromStr text :=
    match plainDocs.find? fun doc => docToml doc == text with
    | some doc => .ok doc
    | none => .error "TOML parse error"

private theorem registryToml_bare : '/' ∉ "peers.toml".toList := by decide

private theorem registryToml_visible : "peers.toml".toList.head? ≠ some '.' := by decide

private def registryToml : Target := ⟨"/c", "peers.toml", registryToml_bare, registryToml_visible⟩

private def registryDisk : FileSys PathBuf :=
  (FileSys.empty.writeFile registryToml.path
    (docToml ⟨[plain "laptop" "l" false, plain "phone" "p" true]⟩)).getD FileSys.empty

/-- `qdrop unpair laptop` and `qdrop auth --revoke phone` at the same time: the second loads before the first saves. -/
private def unpairAndRevoke : List (StoreEvent RegOp) :=
  [.start registryToml 7 (.edit (.unpair "laptop")), .call 0 (.read 4096), .call 0 .eof, .call 0 .mkdir,
    .start registryToml 8 (.edit (.revoke "phone")), .call 1 (.read 20), .call 0 .create, .call 0 (.write 4096),
    .call 0 .sync, .call 0 .rename, .call 1 (.read 4096), .call 1 .eof, .call 1 .create, .call 1 (.write 30),
    .call 1 (.write 4096), .call 1 .sync, .call 1 .rename]

private theorem plainDocs_closed : ∀ ops : List RegOp, (∀ op ∈ ops, op = .unpair "laptop" ∨ op = .revoke "phone") →
    ∃ doc ∈ plainDocs, applyOps (fun _ => "") (plainToml.view (registryDisk.read registryToml.path)) ops =
      .document doc := by
  intro ops
  induction ops using List.reverseRecOn with
  | nil => exact fun _ => ⟨plainDocs.head (by decide), by decide, by decide +kernel⟩
  | append_singleton ops op ih =>
    intro hops
    obtain ⟨doc, hdoc, heq⟩ := ih fun o ho => hops o (List.mem_append_left _ ho)
    have hop := hops op (List.mem_append_right _ (List.mem_singleton.2 rfl))
    rw [applyOps] at heq ⊢
    rw [serially_snoc, heq]
    have hall : ∀ doc ∈ plainDocs, ∀ op ∈ [RegOp.unpair "laptop", RegOp.revoke "phone"],
        ∃ doc' ∈ plainDocs, (op.update (fun _ => "") (.document doc)).getD (.document doc) = .document doc' := by
      decide
    exact hall doc hdoc op (by simpa using hop)

/-- `laptop` is back, and `phone` is not authorized any more. -/
theorem peers_toml_updates_overlap :
    ∃ s, Run (storeStep (plainToml.save (fun _ => ""))) Apart (Store.start registryDisk) unpairAndRevoke s ∧
      plainToml.view (s.disk.fs.read registryToml.path) =
        .document ⟨[plain "laptop" "l" false, plain "phone" "p" false]⟩ ∧
      ∃ kept, (kept.map FileOp.edit).Sublist (s.savedAt registryToml.path) ∧
        plainToml.view (s.disk.fs.read registryToml.path) =
          applyOps (fun _ => "") (plainToml.view (registryDisk.read registryToml.path)) kept := by
  obtain ⟨s, hrun, hview⟩ := run_of_exec_checked (storeStep (plainToml.save (fun _ => ""))) Apart
    (Store.start registryDisk) unpairAndRevoke (fun s => plainToml.view (s.disk.fs.read registryToml.path))
    (.document ⟨[plain "laptop" "l" false, plain "phone" "p" false]⟩) (by decide +kernel)
  refine ⟨s, hrun, hview, (peers_toml_updates plainToml (fun _ => "") registryDisk unpairAndRevoke s registryToml hrun
    ?_ ?_).2.2 ?_⟩
  · intro e he
    simp only [unpairAndRevoke, List.mem_cons, List.not_mem_nil, or_false] at he
    rcases he with rfl | rfl | rfl | rfl | rfl | rfl | rfl | rfl | rfl | rfl | rfl | rfl | rfl | rfl | rfl | rfl | rfl
    all_goals first
      | exact fun _ => ⟨_, rfl⟩
      | trivial
  · intro ops doc hops heq
    have hrt : ∀ doc ∈ plainDocs, plainToml.fromStr (plainToml.toStringPretty doc) = .ok doc := by decide +kernel
    obtain ⟨doc', hdoc', heq'⟩ := plainDocs_closed ops fun op hop => by
      obtain ⟨T, pid, hmem, -⟩ := hops op hop
      have hstart : T = registryToml ∧ pid = 7 ∧ op = .unpair "laptop" ∨
          T = registryToml ∧ pid = 8 ∧ op = .revoke "phone" := by simpa [unpairAndRevoke] using hmem
      exact hstart.imp (fun h => h.2.2) fun h => h.2.2
    rw [heq'] at heq
    cases heq
    exact hrt doc hdoc'
  · decide

end Qdrop

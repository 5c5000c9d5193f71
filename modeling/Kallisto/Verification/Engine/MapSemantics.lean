import Kallisto.Verification.Engine.Keys
import Kallisto.Verification.Engine.Pending
import Kallisto.Verification.Engine.Scripts

/-! # Scripts on a map

The meaning of a request without cache, queue and worker: a script moves on one map of
records, and takes from outside the outcome of its writes and the time. -/

namespace Kallisto.Engine

variable {B : Type} {mode : SyncMode} {K : String → Prop}

/-! ## Moves -/

/-- The records and the paths in the index. -/
structure Books (B : Type) where
  records : String → Option B
  paths : List String

def Books.write (books : Books B) (op : AsyncOp B) : Books B :=
  { books with records := op.apply books.records }

def Books.register (books : Books B) (path : String) : Books B :=
  { books with paths := if path ∈ books.paths then books.paths else path :: books.paths }

theorem Books.mem_register (books : Books B) (path path' : String) :
    path' ∈ (books.register path).paths ↔ path' = path ∨ path' ∈ books.paths := by
  unfold Books.register
  dsimp only
  split
  · rename_i hmem
    refine ⟨Or.inr, ?_⟩
    rintro (rfl | h)
    · exact hmem
    · exact h
  · exact List.mem_cons

/-- How a request ends when RocksDB refuses a write. -/
def AsyncOp.failure : AsyncOp B → String → EngineError
  | .put _ _, e => .storageError ("Immediate write failed: " ++ e)
  | .delete _, e => .storageError ("Immediate delete failed: " ++ e)

/-- What a script takes from outside: the outcome of a write, or the time. -/
inductive Given where
  | outcome (error : Option String)
  | time (now : UInt64)
  deriving DecidableEq, Repr

/-- One move of a script, with what it takes from outside and the write it makes. Keys of
`C` are read from the map; a read of another key may return anything. -/
inductive Script.Moves (C : String → Prop) :
    Script B → Books B → List Given → Option (AsyncOp B) → Script B → Books B → Prop where
  | read (key : String) (k : Option B → Script B) (books : Books B) (found : Option B)
      (h : C key → found = books.records key) :
      Moves C (.read key k) books [] none (k found) books
  | clock (k : UInt64 → Script B) (books : Books B) (now : UInt64) :
      Moves C (.clock k) books [.time now] none (k now) books
  | write (op : AsyncOp B) (next : Script B) (books : Books B) :
      Moves C (.write op next) books [.outcome none] (some op) next (books.write op)
  | refused (op : AsyncOp B) (next : Script B) (books : Books B) (e : String) :
      Moves C (.write op next) books [.outcome (some e)] none (.finish (.error (op.failure e))) books
  | register (path : String) (next : Script B) (books : Books B) :
      Moves C (.register path next) books [] none next (books.register path)

/-- What a call took from outside. -/
def Effect.faced : (op : Effect B) → op.Ret → List Given
  | .putRaw _ _, (.ok () : Except String Unit) => [.outcome none]
  | .putRaw _ _, (.error e : Except String Unit) => [.outcome (some e)]
  | .delRaw _, (.ok () : Except String Unit) => [.outcome none]
  | .delRaw _, (.error e : Except String Unit) => [.outcome (some e)]
  | .enqueue _, (.ok () : Except QueueError Unit) => [.outcome none]
  | .nowMs, (now : UInt64) => [.time now]
  | _, _ => []

/-- A healthy storage refuses nothing. -/
theorem faced_healthy (s : KvEngine B) (op : Effect B) {choice : Choice}
    (h : choice.error = none) : ∀ e, .outcome (some e) ∉ op.faced (s.exec op choice).1 := by
  obtain ⟨error, now⟩ := choice
  obtain rfl : error = none := h
  intro e he
  cases op with
  | putRaw key value => cases List.mem_singleton.mp he
  | delRaw key => cases List.mem_singleton.mp he
  | enqueue op =>
    simp only [KvEngine.exec] at he
    split at he
    · cases List.mem_singleton.mp he
    · cases he
  | nowMs => cases List.mem_singleton.mp he
  | _ => cases he

/-- A move, or none. -/
def Script.Advances (C : String → Prop) (sc : Script B) (books : Books B) (faced : List Given)
    (wrote : Option (AsyncOp B)) (sc' : Script B) (books' : Books B) : Prop :=
  (sc' = sc ∧ books' = books ∧ faced = [] ∧ wrote = none) ∨
    sc.Moves C books faced wrote sc' books'

/-- A script reads and writes keys of `K` only. In batch mode it deletes none of `C`. -/
def Script.Proper (mode : SyncMode) (C K : String → Prop) : Script B → Prop
  | .finish _ => True
  | .read key k => K key ∧ ∀ found, (k found).Proper mode C K
  | .clock k => ∀ now, (k now).Proper mode C K
  | .write op next =>
    K op.key ∧ (op.value = none → mode = .immediate ∨ ¬ C op.key) ∧ next.Proper mode C K
  | .register path next => K (buildMetaKey path) ∧ next.Proper mode C K

theorem Script.Proper.moves {C : String → Prop} {sc sc' : Script B} {books books' : Books B}
    {faced : List Given} {wrote : Option (AsyncOp B)} (h : sc.Proper mode C K)
    (hmoves : sc.Moves C books faced wrote sc' books') : sc'.Proper mode C K := by
  cases hmoves with
  | read key k books found hfound => exact h.2 found
  | clock k books now => exact h now
  | write op next books => exact h.2.2
  | refused op next books e => trivial
  | register path next books => exact h.2

/-- A proper script leaves the keys of others alone. -/
theorem Script.Proper.frame {C : String → Prop} {sc sc' : Script B} {books books' : Books B}
    {faced : List Given} {wrote : Option (AsyncOp B)} (h : sc.Proper mode C K)
    (hmoves : sc.Moves C books faced wrote sc' books') :
    (∀ key, ¬ K key → books'.records key = books.records key) ∧
      ∀ path, ¬ K (buildMetaKey path) → (path ∈ books'.paths ↔ path ∈ books.paths) := by
  cases hmoves with
  | write op next books =>
    refine ⟨fun key hkey => AsyncOp.apply_of_ne _ ?_, fun _ _ => Iff.rfl⟩
    rintro rfl
    exact hkey h.1
  | register path next books =>
    refine ⟨fun _ _ => rfl, fun path' hpath => ?_⟩
    rw [Books.mem_register]
    refine or_iff_right ?_
    rintro rfl
    exact hpath h.1
  | _ => exact ⟨fun _ _ => rfl, fun _ _ => Iff.rfl⟩

/-! ## Evaluation -/

/-- The outcome of the next write. -/
def nextOutcome : List Given → Option String
  | .outcome error :: _ => error
  | _ => none

theorem nextOutcome_eq_none {faced : List Given} (h : ∀ e, .outcome (some e) ∉ faced) :
    nextOutcome faced = none := by
  rcases faced with _ | ⟨⟨_ | e⟩ | now, rest⟩
  · rfl
  · rfl
  · exact (h e List.mem_cons_self).elim
  · rfl

/-- The next time, or `now` when none is given. -/
def nextTime (now : UInt64) : List Given → UInt64
  | .time now' :: _ => now'
  | _ => now

/-- The script run to its end on the books. -/
def Script.eval (now : UInt64) : Script B → Books B → List Given → Except EngineError Out × Books B
  | .finish r, books, _ => (r, books)
  | .read key k, books, faced => (k (books.records key)).eval now books faced
  | .clock k, books, faced => (k (nextTime now faced)).eval now books faced.tail
  | .write op next, books, faced =>
    match nextOutcome faced with
    | some e => (.error (op.failure e), books)
    | none => next.eval now (books.write op) faced.tail
  | .register path next, books, faced => next.eval now (books.register path) faced

/-- Two books agree on the keys of `K`. -/
structure AgreeOn (K : String → Prop) (books books' : Books B) : Prop where
  records : ∀ key, K key → books.records key = books'.records key
  paths : ∀ path, K (buildMetaKey path) → (path ∈ books.paths ↔ path ∈ books'.paths)

theorem AgreeOn.refl (K : String → Prop) (books : Books B) : AgreeOn K books books :=
  ⟨fun _ _ => rfl, fun _ _ => Iff.rfl⟩

theorem AgreeOn.write {books books' : Books B} (h : AgreeOn K books books') (op : AsyncOp B) :
    AgreeOn K (books.write op) (books'.write op) where
  records key hkey := by
    change op.apply books.records key = op.apply books'.records key
    by_cases heq : key = op.key
    · subst heq
      rw [AsyncOp.apply_key, AsyncOp.apply_key]
    · rw [AsyncOp.apply_of_ne _ heq, AsyncOp.apply_of_ne _ heq]
      exact h.records key hkey
  paths := h.paths

theorem AgreeOn.register {books books' : Books B} (h : AgreeOn K books books') (path : String) :
    AgreeOn K (books.register path) (books'.register path) where
  records := h.records
  paths path' hpath' := by
    rw [Books.mem_register, Books.mem_register, h.paths path' hpath']

/-- A move does not change the evaluation on books that agree. -/
theorem Script.Moves.eval {sc sc' : Script B} {books books' own : Books B} {faced : List Given}
    {wrote : Option (AsyncOp B)} (hmoves : sc.Moves (fun _ => True) books faced wrote sc' books')
    (hproper : sc.Proper mode (fun _ => True) K) (hagree : AgreeOn K own books) :
    ∃ own', AgreeOn K own' books' ∧
      ∀ now rest, sc.eval now own (faced ++ rest) = sc'.eval now own' rest := by
  cases hmoves with
  | read key k books found hfound =>
    refine ⟨own, hagree, fun now rest => ?_⟩
    rw [hfound trivial, ← hagree.records key hproper.1]
    rfl
  | clock k books now => exact ⟨own, hagree, fun _ _ => rfl⟩
  | write op next books => exact ⟨own.write op, hagree.write op, fun _ _ => rfl⟩
  | refused op next books e => exact ⟨own, hagree, fun _ _ => rfl⟩
  | register path next books => exact ⟨own.register path, hagree.register path, fun _ _ => rfl⟩

/-! ## The keys of a request -/

def Call.path : Call → String
  | .readMetadata path => path
  | .readVersion path _ => path
  | .putVersion path _ _ => path
  | .softDelete path _ => path
  | .undelete path _ => path
  | .destroyVersion path _ => path

/-- The keys of the records of a path. -/
def PathKey (path key : String) : Prop :=
  key = buildMetaKey path ∨ ∃ n, key = buildVersionKey path n

theorem PathKey.inj {path path' key : String} (h : PathKey path key) (h' : PathKey path' key) :
    path = path' := by
  rcases h with rfl | ⟨n, rfl⟩
  · rcases h' with heq | ⟨n', heq⟩
    · exact buildMetaKey_inj.mp heq
    · exact (buildMetaKey_ne_buildVersionKey _ _ _ heq).elim
  · rcases h' with heq | ⟨n', heq⟩
    · exact (buildMetaKey_ne_buildVersionKey _ _ _ heq.symm).elim
    · exact (buildVersionKey_inj.mp heq).1

section Proper

variable {mode : SyncMode} {C K : String → Prop} {path : String} (rkyv : Rkyv B)

theorem proper_storeMetadataScript (hK : ∀ key, PathKey path key → K key) (m : KeyMetadata)
    {next : Script B} (hnext : next.Proper mode C K) :
    (storeMetadataScript rkyv path m next).Proper mode C K := by
  unfold storeMetadataScript
  split
  · trivial
  · exact ⟨hK _ (Or.inl rfl), nofun, hnext⟩

theorem proper_readMetadataScript (hK : ∀ key, PathKey path key → K key)
    {k : KeyMetadata → Script B} (hk : ∀ m, (k m).Proper mode C K) :
    (readMetadataScript rkyv path k).Proper mode C K := by
  refine ⟨hK _ (Or.inl rfl), fun found => ?_⟩
  cases found with
  | none => trivial
  | some bytes => exact hk _

/-- A request touches the records of its path only. -/
theorem script_proper (hC : mode = .immediate ∨ ∀ path n, ¬ C (buildVersionKey path n)) (c : Call)
    (hK : ∀ key, PathKey c.path key → K key) : (script rkyv c).Proper mode C K := by
  cases c with
  | readMetadata path =>
    unfold script
    exact proper_readMetadataScript rkyv hK fun _ => trivial
  | readVersion path version =>
    refine ⟨hK _ (Or.inl rfl), fun found => ?_⟩
    cases found with
    | none => trivial
    | some bytes =>
      dsimp only
      rcases locate version (rkyv.archivedMetadata bytes) with ⟨target, _ | v⟩
      · trivial
      · dsimp only
        split
        · trivial
        · split
          · trivial
          · split
            · trivial
            · refine ⟨hK _ (Or.inr ⟨target, rfl⟩), fun found => ?_⟩
              cases found <;> trivial
  | putVersion path x cas =>
    refine ⟨hK _ (Or.inl rfl), fun found => ?_⟩
    have happend : ∀ m, (appendVersionScript rkyv path x m).Proper mode C K := by
      intro m created
      split
      · trivial
      · exact ⟨hK _ (Or.inr ⟨_, rfl⟩), nofun,
          proper_storeMetadataScript rkyv hK _ ⟨hK _ (Or.inl rfl), trivial⟩⟩
    dsimp only
    unfold checkCasScript
    split
    · split
      · trivial
      · exact happend _
    · exact happend _
  | softDelete path version =>
    unfold script softDeleteScript
    refine proper_readMetadataScript rkyv hK fun m => ?_
    split
    · trivial
    · exact fun now => proper_storeMetadataScript rkyv hK _ trivial
  | undelete path version =>
    unfold script undeleteScript
    refine proper_readMetadataScript rkyv hK fun m => ?_
    split
    · trivial
    · split
      · trivial
      · exact proper_storeMetadataScript rkyv hK _ trivial
  | destroyVersion path version =>
    unfold script destroyVersionScript
    refine proper_readMetadataScript rkyv hK fun m => ?_
    split
    · trivial
    · refine ⟨hK _ (Or.inr ⟨version, rfl⟩), fun _ => ?_,
        proper_storeMetadataScript rkyv hK _ trivial⟩
      rcases hC with hmode | hC
      · exact Or.inl hmode
      · exact Or.inr (hC path version)

end Proper

end Kallisto.Engine

/-
  The coordinator of coalesced scans, with the callers that submit requests to it and the writers
  that go on around it.

  The calls put their requests into a channel, each with a channel `resp` of its own for the answer.
  The coordinator takes a batch of them, groups it by collection, and makes one pass for each group.
  A pass visits one document after another, and writes may come in between; the documents to be
  returned are looked up again when they are decoded.  When a window ends is left open: it may end
  at any moment.
-/
import MoltenDB.Engine.Coalesce
import MoltenDB.Lib.Groups

namespace MoltenDB

open Wire Prog

/-- The keys of the documents for a request: in order, and no more than wanted. -/
def ScanRequest.winners (req : ScanRequest) (acc : Accum) : List String :=
  match req.kind, acc with
  | .filtered need defaultOrderAsc, .filtered pairs =>
    ((Operations.sortBySeq defaultOrderAsc pairs).take (need.getD (2 ^ 64 - 1))).map Prod.snd
  | .sortedTopN _ _ _, .sorted heap => heap.map SortItem.key
  | _, _ => []

namespace Coalescer

/-- The most requests of one batch. -/
def MAX_BATCH : ℕ := 64

/-- A request that was submitted: the channel of its caller, and how many writes there had been. -/
structure Submission where
  resp : ℕ
  collection : String
  request : ScanRequest
  submittedAt : ℕ

/-- What was sent to a caller, and how many writes there had been. -/
structure Answer where
  req : Submission
  docs : List (String × Json)
  sentAt : ℕ

abbrev Batch := List (String × List Submission)

/-- What `coordinator_loop` does next. -/
inductive Pc
  | recv
  | collect (batch : List Submission)
  | groups (rest : Batch)
  /-- In a pass that began after `since` writes: the documents that were visited, and the keys that
      are still to be. -/
  | pass (collection : String) (requests : List Submission) (since : ℕ)
      (visited : List (String × Bytes)) (left : List String) (rest : Batch)
  | order (collection : String) (todo : List (Submission × Accum)) (rest : Batch)
  | decode (collection : String) (req : Submission) (keys : List String)
      (docs : List (String × Json)) (todo : List (Submission × Accum)) (rest : Batch)
  | stopped

/-- The coordinator, its callers, and the databases before each write; the calls that were answered
    have what was sent to them. -/
structure Sys where
  db : Db
  past : List Db
  submissions : List Submission
  queue : List Submission
  answers : List Answer
  handles : Bool
  pc : Pc

def Sys.start (db : Db) : Sys := ⟨db, [], [], [], [], true, .recv⟩

/-- What is decided from outside: whether another request comes in time, the order of the groups,
    the next document of a pass, and the order in which its workers come to the documents. -/
inductive Choice
  | take
  | close (order : List String)
  | visit (key : String)
  | merge (entries : List (String × Bytes))

/-- A key that is removed in a pass need not be visited any more. -/
def Pc.written (db : Db) : Pc → Pc
  | .pass c requests since visited left rest =>
    .pass c requests since visited (left.filter fun k => (db.bytes c k).isSome) rest
  | pc => pc

section

variable [Crates]

/-- One step of `coordinator_loop`; a choice that cannot be made is none.  The workers of a pass
    depend on what was answered before. -/
def Sys.advance (workers : ℕ → Workers) (s : Sys) (choice : Choice) : Sys :=
  match s.pc with
  | .recv =>
    match s.queue with
    | [] => if s.handles then s else { s with pc := .stopped }
    | req :: queue => { s with queue, pc := .collect [req] }
  | .collect batch =>
    match choice, s.queue with
    | .take, req :: queue =>
      if batch.length < MAX_BATCH then { s with queue, pc := .collect (batch ++ [req]) } else s
    | .close order, _ =>
      let groups := Groups.grouped Submission.collection batch
      if order.Perm groups.keys then { s with pc := .groups (groups.inOrder order) } else s
    | _, _ => s
  | .groups [] => { s with pc := .recv }
  | .groups ((c, requests) :: rest) =>
    match s.db.col c with
    | none =>
      { s with
        answers := s.answers ++ requests.map fun req => ⟨req, [], s.past.length⟩
        pc := .groups rest }
    | some col => { s with pc := .pass c requests s.past.length [] col.keys rest }
  | .pass c requests since visited left rest =>
    match choice with
    | .visit k =>
      match s.db.bytes c k with
      | some b =>
        if k ∈ visited.map Prod.fst then s
        else { s with pc := .pass c requests since (visited ++ [(k, b)]) (left.erase k) rest }
      | none => s
    | .merge entries =>
      if left = [] ∧ entries.Perm visited then
        let tasks := requests.map fun req => req.request.task
        let merged := ((workers s.answers.length).split entries).fold (newAccumulators tasks)
          (fun accs e => visitAll e.1 e.2 none tasks accs) (mergeAll (workers s.answers.length) tasks)
        { s with pc := .order c (requests.zip merged) rest }
      else s
    | _ => s
  | .order _ [] rest => { s with pc := .groups rest }
  | .order c ((req, acc) :: todo) rest =>
    { s with pc := .decode c req (req.request.winners acc) [] todo rest }
  | .decode c req [] docs todo rest =>
    { s with answers := s.answers ++ [⟨req, docs, s.past.length⟩], pc := .order c todo rest }
  | .decode c req (k :: keys) docs todo rest =>
    let found := decodeKey ((s.db.col c).getD ∅) k
    { s with pc := .decode c req keys (docs ++ found.toList) todo rest }
  | .stopped => s

/-! ## All parties -/

inductive Event
  | submit (collection : String) (request : ScanRequest)
  /-- A write of whatever operation. -/
  | write (db : Db)
  | coordinator (choice : Choice)
  /-- The last handle is dropped. -/
  | drop

/-- A call has a handle until it is answered. -/
def Sys.step (workers : ℕ → Workers) (s : Sys) : Event → Sys
  | .submit collection request =>
    if s.handles then
      let req := ⟨s.submissions.length, collection, request, s.past.length⟩
      { s with submissions := s.submissions ++ [req], queue := s.queue ++ [req] }
    else s
  | .write db => { s with db, past := s.past ++ [s.db], pc := s.pc.written db }
  | .coordinator choice => s.advance workers choice
  | .drop =>
    if s.answers.length = s.submissions.length then { s with handles := false } else s

end

end Coalescer

end MoltenDB

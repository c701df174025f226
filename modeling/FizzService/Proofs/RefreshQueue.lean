/-
A refresh queue is a line of parameter sets: nobody stands in it twice, and it
is never longer than its room. Whatever calls come, the queue answers as the
line does (`answers_as_line`), and the keys it hands out are those of the
parameters that came.

The queue keeps the keys in line and, apart from them, the marks by which it
knows who stands there. It is in step with a line if both are that line
(`Follows`); one call keeps them in step (`Follows.call`), so every sequence of
calls does.
-/
import FizzService.Proofs.Cache.Queue

namespace FizzService

/-- Sets of parameters in line, the first to leave first. -/
structure Line (room : Nat) where
  params : List Params
  nodup : params.Nodup
  bounded : params.length ≤ room

/-- The calls on a queue. -/
inductive QueueCall where
  | enqueue (params : Params)
  /-- Waits for a key where there is none, and may go away without one. -/
  | dequeue
  | tryDequeue
  | isQueued (params : Params)
  | pending

inductive QueueReply where
  | flag (value : Bool)
  | key (next : CacheKey)
  /-- There is no key. -/
  | nothing
  /-- There is no key, and the caller waits for one. -/
  | waits
  | count (n : Nat)

namespace QueueCall

/-- All calls in turn: the replies, and what is left. -/
def serve {σ : Type} (call : σ → QueueCall → QueueReply × σ) : σ → List QueueCall → List QueueReply × σ
  | s, [] => ([], s)
  | s, c :: calls =>
    let (reply, s) := call s c
    let (replies, s) := serve call s calls
    (reply :: replies, s)

end QueueCall

/-- What a caller hears who may have got a key. -/
def QueueReply.ofKey (otherwise : QueueReply) : Option CacheKey → QueueReply
  | some next => .key next
  | none => otherwise

namespace Line

variable {room : Nat}

def empty (room : Nat) : Line room := ⟨[], .nil, Nat.zero_le room⟩

/-- Who may come into the line. -/
def Admits (l : Line room) (p : Params) : Prop := p ∉ l.params ∧ l.params.length < room

instance (l : Line room) (p : Params) : Decidable (l.Admits p) := inferInstanceAs (Decidable (_ ∧ _))

/-- The line with one more at its end. -/
def join (l : Line room) (p : Params) (h : l.Admits p) : Line room where
  params := l.params ++ [p]
  nodup := List.nodup_append.2 ⟨l.nodup, by simp, fun a ha b hb hab =>
    h.1 (List.mem_singleton.1 hb ▸ hab ▸ ha)⟩
  bounded := by
    rw [List.length_append, List.length_singleton]
    exact h.2

/-- The line without its head. -/
def leave (l : Line room) : Line room where
  params := l.params.tail
  nodup := l.nodup.sublist (List.tail_sublist _)
  bounded := Nat.le_trans (List.length_tail ▸ Nat.sub_le ..) l.bounded

/-- The key of the one at the head. -/
def head? (l : Line room) : Option CacheKey := l.params.head?.map .ofParams

def call (l : Line room) : QueueCall → QueueReply × Line room
  | .enqueue p => if h : l.Admits p then (.flag true, l.join p h) else (.flag false, l)
  | .dequeue => (.ofKey .waits l.head?, l.leave)
  | .tryDequeue => (.ofKey .nothing l.head?, l.leave)
  | .isQueued p => (.flag (p ∈ l.params), l)
  | .pending => (.count l.params.length, l)

end Line

namespace RefreshQueue

def call (q : RefreshQueue) : QueueCall → QueueReply × RefreshQueue
  | .enqueue p => (.flag (q.enqueue (.ofParams p)).1, (q.enqueue (.ofParams p)).2)
  | .dequeue => (.ofKey .waits q.dequeue.1, q.dequeue.2)
  | .tryDequeue => (.ofKey .nothing q.dequeue.1, q.dequeue.2)
  | .isQueued p => (.flag (q.isQueued (.ofParams p)), q)
  | .pending => (.count q.pending, q)

/-- The queue is in step with a line: its keys are those of the line, in the
same order, and so are its marks. -/
structure Follows {room : Nat} (q : RefreshQueue) (l : Line room) : Prop where
  capacity : q.capacity = room
  line : q.line = l.params.map .ofParams
  marks : q.marks = l.params.map fun p => (CacheKey.ofParams p).text

variable {room : Nat} {q : RefreshQueue} {l : Line room}

theorem Follows.new {capacity : Nat} (h : new? capacity = some q) :
    q.Follows (.empty (max capacity 1)) := by
  obtain ⟨hsound, hcapacity, hline⟩ := Sound.new h
  exact ⟨hcapacity, hline, by rw [hsound.marks, hline]; rfl⟩

theorem Follows.mem_line (h : q.Follows l) (p : Params) : CacheKey.ofParams p ∈ q.line ↔ p ∈ l.params := by
  rw [h.line, List.mem_map]
  exact ⟨fun ⟨p', hp', he⟩ => CacheKey.ofParams_inj.1 he ▸ hp', fun hp => ⟨p, hp, rfl⟩⟩

theorem Follows.sound (h : q.Follows l) : q.Sound where
  marks := by rw [h.marks, h.line, List.map_map]; rfl
  nodup := by
    rw [h.line]
    exact List.Pairwise.map _ (fun _ _ hne he => hne (CacheKey.ofParams_inj.1 he)) l.nodup
  bounded := by
    rw [h.line, h.capacity, List.length_map]
    exact l.bounded

/-- The queue turns away whom the line does not admit. -/
theorem Follows.refuses_iff (h : q.Follows l) (p : Params) : q.Refuses (.ofParams p) ↔ ¬ l.Admits p := by
  rw [Refuses, h.mem_line, h.capacity, h.line, List.length_map, Line.Admits, Decidable.not_and_iff_or_not,
    Decidable.not_not, Nat.not_lt]

theorem Follows.push (h : q.Follows l) {p : Params} (hp : l.Admits p) :
    (q.push (.ofParams p)).Follows (l.join p hp) where
  capacity := h.capacity
  line := by rw [RefreshQueue.push, h.line, Line.join, List.map_append]; rfl
  marks := by rw [RefreshQueue.push, h.marks, Line.join, List.map_append]; rfl

theorem Follows.dequeue_fst (h : q.Follows l) : q.dequeue.1 = l.head? := by
  rw [Line.head?, ← List.head?_map, ← h.line]
  unfold RefreshQueue.dequeue
  split <;> rename_i hline <;> rw [hline] <;> rfl

/-- With the key at the head its mark goes, and no other. -/
theorem Follows.leave (h : q.Follows l) : q.dequeue.2.Follows l.leave where
  capacity := q.capacity_dequeue.trans h.capacity
  line := by rw [line_dequeue, h.line, Line.leave, List.map_tail]
  marks := by
    rw [h.sound.dequeue.marks, line_dequeue, h.line, Line.leave, ← List.map_tail, List.map_map]
    rfl

/-- **One call keeps the queue in step with the line**, and is answered as the
line answers it. -/
theorem Follows.call (h : q.Follows l) (c : QueueCall) :
    (q.call c).1 = (l.call c).1 ∧ (q.call c).2.Follows (l.call c).2 := by
  cases c with
  | enqueue p =>
    by_cases hp : l.Admits p
    · have htaken := h.sound.enqueue_taken fun hr => (h.refuses_iff p).1 hr hp
      rw [RefreshQueue.call, htaken, Line.call, dif_pos hp]
      exact ⟨rfl, h.push hp⟩
    · have hrefused := h.sound.enqueue_refused ((h.refuses_iff p).2 hp)
      rw [RefreshQueue.call, hrefused, Line.call, dif_neg hp]
      exact ⟨rfl, h⟩
  | dequeue | tryDequeue => exact ⟨congrArg (QueueReply.ofKey _) h.dequeue_fst, h.leave⟩
  | isQueued p =>
    refine ⟨congrArg QueueReply.flag ?_, h⟩
    rw [Bool.eq_iff_iff, h.sound.isQueued_iff, h.mem_line, decide_eq_true_eq]
  | pending =>
    refine ⟨congrArg QueueReply.count ?_, h⟩
    rw [RefreshQueue.pending, h.marks, List.length_map]

theorem Follows.serve (h : q.Follows l) (calls : List QueueCall) :
    (QueueCall.serve RefreshQueue.call q calls).1 = (QueueCall.serve Line.call l calls).1 ∧
      (QueueCall.serve RefreshQueue.call q calls).2.Follows (QueueCall.serve Line.call l calls).2 := by
  induction calls generalizing q l with
  | nil => exact ⟨rfl, h⟩
  | cons c calls ih =>
    obtain ⟨hreply, hnext⟩ := h.call c
    obtain ⟨hreplies, hlast⟩ := ih hnext
    refine ⟨?_, hlast⟩
    simp only [QueueCall.serve, hreply, hreplies]

/-- **A refresh queue is a line.** A queue of every capacity up to the longest
is set up, and whatever calls come, each is answered as a line with that room
answers it, or room for one where the capacity is zero; what the queue holds
after them, and what it has marked as queued, is what stands in that line. -/
theorem answers_as_line {capacity : Nat} (h : capacity ≤ longest) :
    ∃ q, new? capacity = some q ∧ ∀ calls : List QueueCall,
      (QueueCall.serve call q calls).1 =
        (QueueCall.serve Line.call (.empty (max capacity 1)) calls).1 ∧
      (QueueCall.serve call q calls).2.Follows
        (QueueCall.serve Line.call (.empty (max capacity 1)) calls).2 := by
  have hone : 1 ≤ longest := by decide
  have hnew : new? capacity = some ⟨max capacity 1, [], []⟩ := if_pos (Nat.max_le.2 ⟨h, hone⟩)
  exact ⟨_, hnew, fun calls => (Follows.new hnew).serve calls⟩

/-- Two wait in a queue for two. The one that comes again and the third are
turned away, and the one that came first is the first to leave; then there is
room for it at the end. -/
theorem answers_as_line_two : 2 ≤ longest ∧ ∃ q, new? 2 = some q ∧
    let one : Params := { (default : Params) with limit := 1 }
    let two : Params := { (default : Params) with limit := 2 }
    let three : Params := { (default : Params) with limit := 3 }
    (QueueCall.serve call q [.enqueue one, .enqueue two, .enqueue one, .enqueue three, .pending, .dequeue,
        .enqueue one, .tryDequeue, .isQueued two, .dequeue, .dequeue, .tryDequeue]).1 =
      [.flag true, .flag true, .flag false, .flag false, .count 2, .key (.ofParams one),
        .flag true, .key (.ofParams two), .flag false, .key (.ofParams one), .waits, .nothing] := by
  have hshort : 2 ≤ longest := by decide
  obtain ⟨q, hq, hanswers⟩ := answers_as_line hshort
  exact ⟨hshort, q, hq, (hanswers _).1⟩

end RefreshQueue

end FizzService

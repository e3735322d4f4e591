import Mathlib.Data.List.Basic
import Mathlib.Data.Set.Insert
import YominsAgent.Lib.Run

/- Delivered positions over a queue of acknowledgements.

   Readers go through files and hand out what they read as spans, in order, into one queue; a span
   that needs no delivery is skipped. The consumer acknowledges the spans in queue order, and each
   acknowledgement sets the position of the span's path to the span's end. The table of positions is
   saved now and then, and a crash loses everything but the saved table and the files.

   A file is read under a path; both are of any type. A path may lead to one file after another, and
   a position names the file it is about. `start p i` is where reading of the file `i` under the
   path `p` began afresh the last time.

   `Sound` says that a table never claims too much: every byte from the start up to a position was
   acknowledged or skipped. It is kept by every step (`Step.sound`) as long as a file is started
   afresh under a path only when no table that can still be read, and no span in the queue, is about
   the two. A file whose content was replaced is `dead`: nothing is said of it. -/
namespace YominsAgent.Lib

open List Option

variable {π ι : Type}

/-- The bytes `lo ≤ b < hi` of a file, read under a path. -/
structure Span (π ι : Type) where
  path : π
  file : ι
  lo : Nat
  hi : Nat
  deriving DecidableEq, Repr

/-- The byte `b` of the file, read under the path, lies in the span. -/
def Span.Has (sp : Span π ι) (p : π) (i : ι) (b : Nat) : Prop :=
  sp.path = p ∧ sp.file = i ∧ sp.lo ≤ b ∧ b < sp.hi

instance [DecidableEq π] [DecidableEq ι] (sp : Span π ι) (p : π) (i : ι) (b : Nat) :
    Decidable (sp.Has p i b) :=
  inferInstanceAs (Decidable (_ ∧ _))

/-- Every byte from `lo` to `hi` lies in one of the spans of the file. -/
def Covers (spans : Set (Span π ι)) (p : π) (i : ι) (lo hi : Nat) : Prop :=
  ∀ b, lo ≤ b → b < hi → ∃ sp ∈ spans, sp.path = p ∧ sp.file = i ∧ sp.lo ≤ b ∧ b < sp.hi

variable {sp : Span π ι}

namespace Covers
variable {S T : Set (Span π ι)} {p : π} {i : ι} {lo mid hi : Nat}

theorem empty (lo : Nat) : Covers S p i lo lo := by
  intro b hlo hhi
  omega

theorem mono (hc : Covers S p i lo hi) (hs : S ⊆ T) : Covers T p i lo hi := by
  intro b hlo hhi
  obtain ⟨sp, hsp, hb⟩ := hc b hlo hhi
  exact ⟨sp, hs hsp, hb⟩

theorem trans (h1 : Covers S p i lo mid) (h2 : Covers S p i mid hi) : Covers S p i lo hi := by
  intro b hlo hhi
  by_cases hb : b < mid
  · exact h1 b hlo hb
  · exact h2 b (by omega) hhi

theorem self (hsp : sp ∈ S) : Covers S sp.path sp.file sp.lo sp.hi := by
  intro b hlo hhi
  exact ⟨sp, hsp, rfl, rfl, hlo, hhi⟩

/-- What is covered up to a span is covered up to its end with the span. -/
theorem extend (hc : Covers S sp.path sp.file lo sp.lo) :
    Covers (insert sp S) sp.path sp.file lo sp.hi :=
  (hc.mono (Set.subset_insert sp S)).trans (self (Set.mem_insert sp S))

end Covers

/-- Acknowledged in order, each span of the queue leaves its file covered up to
the span's end; `S` are the spans done before. -/
def QueueCovers (start : π → ι → Nat) (dead : List ι) : Set (Span π ι) → List (Span π ι) → Prop
  | _, [] => True
  | S, sp :: rest =>
    (sp.file ∉ dead → Covers (insert sp S) sp.path sp.file (start sp.path sp.file) sp.hi) ∧
      QueueCovers start dead (insert sp S) rest

namespace QueueCovers
variable {start start' : π → ι → Nat} {dead dead' : List ι} {S T : Set (Span π ι)}
  {q : List (Span π ι)}

section
variable (h : QueueCovers start dead S q)
include h

theorem mono (hs : S ⊆ T) : QueueCovers start dead T q := by
  induction q generalizing S T with
  | nil => trivial
  | cons sp q ih =>
    have hins : insert sp S ⊆ insert sp T := Set.insert_subset_insert hs
    exact ⟨fun hd => (h.1 hd).mono hins, ih h.2 hins⟩

/-- Only the starts of the files in the queue matter, and fewer files may count. -/
theorem congr (hst : ∀ sp ∈ q, sp.file ∉ dead' → start' sp.path sp.file = start sp.path sp.file)
    (hd : ∀ i ∈ dead, i ∈ dead') : QueueCovers start' dead' S q := by
  induction q generalizing S with
  | nil => trivial
  | cons sp q ih =>
    refine ⟨fun hd' => ?_, ih h.2 fun x hx => hst x (mem_cons_of_mem sp hx)⟩
    rw [hst sp mem_cons_self hd']
    exact h.1 fun hmem => hd' (hd _ hmem)

theorem snoc
    (hsp : sp.file ∉ dead → Covers (S ∪ {x | x ∈ q}) sp.path sp.file (start sp.path sp.file) sp.lo)
    :
    QueueCovers start dead S (q ++ [sp]) := by
  induction q generalizing S with
  | nil => exact ⟨fun hd => (hsp hd).extend.mono (by simp), trivial⟩
  | cons x q ih =>
    refine ⟨h.1, ih h.2 fun hd => (hsp hd).mono ?_⟩
    intro y hy
    simp only [Set.mem_union, Set.mem_ofPred_eq, mem_cons, Set.mem_insert_iff] at hy ⊢
    tauto

theorem of_prefix {q' : List (Span π ι)} (hq : q' <+: q) : QueueCovers start dead S q' := by
  induction q' generalizing S q with
  | nil => trivial
  | cons sp q' ih =>
    obtain ⟨rest, rfl⟩ := hq
    exact ⟨h.1, ih h.2 ⟨rest, rfl⟩⟩

end

end QueueCovers

/-- A table of positions. -/
abbrev Table (π ι : Type) := π → Option (ι × Nat)

structure Cursors (π ι : Type) where
  /-- The positions in memory, those being saved, and the saved ones. -/
  pos : Table π ι
  snap : Option (Table π ι)
  saved : Table π ι
  /-- The spans handed out and not yet acknowledged. -/
  queue : List (Span π ι)
  acked : List (Span π ι)
  skipped : List (Span π ι)
  start : π → ι → Nat
  /-- How far the reader of a file has come. -/
  head : π → ι → Option Nat
  dead : List ι

namespace Cursors
variable [DecidableEq π] [DecidableEq ι]

/-- `f` with a new value for `p`. -/
def set {α : Type} (f : π → α) (p : π) (a : α) : π → α := fun q => if q = p then a else f q

def set₂ {α : Type} (f : π → ι → α) (p : π) (i : ι) (a : α) : π → ι → α :=
  fun q j => if q = p ∧ j = i then a else f q j

/-- Neither the saved positions, nor those being saved, nor the queue are about
the file `i` under the path `p`. -/
structure Unmentioned (c : Cursors π ι) (p : π) (i : ι) : Prop where
  saved : ∀ o, c.saved p ≠ some (i, o)
  snap : ∀ t, c.snap = some t → ∀ o, t p ≠ some (i, o)
  queue : ∀ e ∈ c.queue, ¬ (e.path = p ∧ e.file = i)

/-- What happens to the spans handed out and to the tables of positions. -/
inductive Passive (c : Cursors π ι) : Cursors π ι → Prop where
  | ack (sp : Span π ι) (rest : List (Span π ι)) (h : c.queue = sp :: rest) :
      Passive c { c with
        queue := rest, acked := c.acked ++ [sp], pos := set c.pos sp.path (some (sp.file, sp.hi)) }
  /-- An acknowledgement that leaves the positions as they are. -/
  | ackIdle (sp : Span π ι) (rest : List (Span π ι)) (h : c.queue = sp :: rest) :
      Passive c { c with queue := rest, acked := c.acked ++ [sp] }
  | snapshot : Passive c { c with snap := some c.pos }
  | save (t : Table π ι) (h : c.snap = some t) : Passive c { c with saved := t, snap := none }
  | abandon : Passive c { c with snap := none }
  /-- Of the queue only a first part will still be acknowledged, and nothing
  handed out later. -/
  | cancel (queue : List (Span π ι)) (h : queue <+: c.queue) :
      Passive c { c with queue, head := fun _ _ => none }
  | crash : Passive c { c with
      queue := [], head := fun _ _ => none, snap := none, pos := c.saved }

/-- What can happen to the positions. -/
inductive Step (c : Cursors π ι) : Cursors π ι → Prop where
  /-- The reader hands out the next span. -/
  | emit (sp : Span π ι) (h : sp.file ∉ c.dead → c.head sp.path sp.file = some sp.lo) :
      Step c { c with
        queue := c.queue ++ [sp], head := set₂ c.head sp.path sp.file (some sp.hi) }
  /-- The reader passes over the next span. -/
  | skip (sp : Span π ι) (h : sp.file ∉ c.dead → c.head sp.path sp.file = some sp.lo) :
      Step c { c with
        skipped := c.skipped ++ [sp], head := set₂ c.head sp.path sp.file (some sp.hi) }
  /-- A reader without a place in the protocol any more passes over a span. -/
  | skipLate (sp : Span π ι) : Step c { c with skipped := c.skipped ++ [sp] }
  /-- Reading of the file begins afresh at `o`. -/
  | fresh (p : π) (i : ι) (o : Nat) (h : i ∉ c.dead → c.Unmentioned p i) :
      Step c { c with
        pos := set c.pos p (some (i, o)), start := set₂ c.start p i o,
        head := set₂ c.head p i (some o) }
  /-- Reading of the file goes on at its position. -/
  | resume (p : π) (i : ι) (o : Nat) (h : i ∉ c.dead → c.pos p = some (i, o)) :
      Step c { c with pos := set c.pos p (some (i, o)), head := set₂ c.head p i (some o) }
  /-- The reader of a file whose content was replaced goes elsewhere. -/
  | rewind (p : π) (i : ι) (o : Nat) (h : i ∈ c.dead) :
      Step c { c with head := set₂ c.head p i (some o) }
  | close (p : π) (i : ι) : Step c { c with head := set₂ c.head p i none }
  | forget (p : π) : Step c { c with pos := set c.pos p none }
  | die (i : ι) : Step c { c with dead := i :: c.dead }
  | passive {c' : Cursors π ι} (h : Passive c c') : Step c c'

def tables (c : Cursors π ι) : List (Table π ι) := c.pos :: c.saved :: c.snap.toList

def done (c : Cursors π ι) : Set (Span π ι) := {sp | sp ∈ c.acked ∨ sp ∈ c.skipped}

/-- No table claims too much, nor will one after the acknowledgements to come. -/
structure Sound (c : Cursors π ι) : Prop where
  table : ∀ t ∈ c.tables, ∀ p i o, t p = some (i, o) → i ∉ c.dead →
    Covers c.done p i (c.start p i) o
  queue : QueueCovers c.start c.dead c.done c.queue
  head : ∀ p i o, c.head p i = some o → i ∉ c.dead →
    Covers (c.done ∪ {sp | sp ∈ c.queue}) p i (c.start p i) o

variable {f : Table π ι} {p q : π} {x : ι × Nat}

omit [DecidableEq ι] in
theorem set_eq_some {y : ι × Nat} (h : set f p (some x) q = some y) :
    (q = p ∧ y = x) ∨ f q = some y := by
  unfold set at h
  split at h
  · next hq => exact .inl ⟨hq, (some.inj h).symm⟩
  · exact .inr h

omit [DecidableEq ι] in
theorem set_none_eq_some (h : set f p none q = some x) : f q = some x := by
  unfold set at h
  split at h
  · cases h
  · exact h

variable {i : ι}

theorem set₂_cases {f : π → ι → Option Nat} {j : ι} {x y : Nat}
    (h : set₂ f p i (some x) q j = some y) :
    (q = p ∧ j = i ∧ y = x) ∨ (¬ (q = p ∧ j = i) ∧ f q j = some y) := by
  unfold set₂ at h
  split at h
  · next hq => exact .inl ⟨hq.1, hq.2, (some.inj h).symm⟩
  · next hq => exact .inr ⟨hq, h⟩

variable {t : Table π ι}

omit [DecidableEq π] [DecidableEq ι] in
theorem mem_tables {c : Cursors π ι} :
    t ∈ c.tables ↔ t = c.pos ∨ t = c.saved ∨ c.snap = some t := by
  simp [tables, mem_toList]

variable {c c' : Cursors π ι} {o : Nat}

omit [DecidableEq π] [DecidableEq ι] in
theorem pos_mem_tables : c.pos ∈ c.tables := mem_cons_self

omit [DecidableEq π] [DecidableEq ι] in
theorem saved_mem_tables : c.saved ∈ c.tables := mem_cons_of_mem _ mem_cons_self

/-- The case of a step that hands out or passes over the next span of a file. -/
theorem Sound.advance (hs : c.Sound) (h : sp.file ∉ c.dead → c.head sp.path sp.file = some sp.lo)
    {T : Set (Span π ι)} (hT : insert sp (c.done ∪ {x | x ∈ c.queue}) ⊆ T)
    (ho : set₂ c.head sp.path sp.file (some sp.hi) p i = some o) (hd : i ∉ c.dead) :
    Covers T p i (c.start p i) o := by
  rcases set₂_cases ho with ⟨rfl, rfl, rfl⟩ | ⟨hne, ho⟩
  · exact (hs.head _ _ _ (h hd) hd).extend.mono hT
  · exact (hs.head p i o ho hd).mono ((Set.subset_insert _ _).trans hT)

theorem Sound.fresh (hs : c.Sound) (h : i ∉ c.dead → c.Unmentioned p i) :
    Sound { c with
      pos := set c.pos p (some (i, o)), start := set₂ c.start p i o,
      head := set₂ c.head p i (some o) } := by
  -- the start moves for this file alone
  have hst : ∀ q j, ¬ (q = p ∧ j = i) → set₂ c.start p i o q j = c.start q j :=
    fun q j hne => if_neg hne
  have hself : set₂ c.start p i o p i = o := if_pos ⟨rfl, rfl⟩
  have hother : ∀ t ∈ c.tables, ∀ q j o', t q = some (j, o') → j ∉ c.dead → ¬ (q = p ∧ j = i) →
      Covers c.done q j (set₂ c.start p i o q j) o' := by
    intro t ht q j o' ho hd hne
    rw [hst q j hne]
    exact hs.table t ht q j o' ho hd
  refine ⟨?_, ?_, ?_⟩
  · intro t ht q j o' ho hd
    by_cases hpi : q = p ∧ j = i
    · obtain ⟨rfl, rfl⟩ := hpi
      have hun := h hd
      rcases mem_tables.mp ht with rfl | rfl | hsnap
      · have : o' = o := by simpa [set, eq_comm] using ho
        show Covers c.done q j (set₂ c.start q j o q j) o'
        rw [hself, this]
        exact Covers.empty o
      · exact absurd ho (hun.saved o')
      · exact absurd ho (hun.snap t hsnap o')
    · rcases mem_tables.mp ht with rfl | rfl | hsnap
      · rcases set_eq_some ho with ⟨rfl, heq⟩ | ho
        · cases heq
          exact absurd ⟨rfl, rfl⟩ hpi
        · exact hother _ pos_mem_tables q j o' ho hd hpi
      · exact hother _ saved_mem_tables q j o' ho hd hpi
      · exact hother _ (mem_tables.mpr (.inr (.inr hsnap))) q j o' ho hd hpi
  · refine hs.queue.congr (fun sp hsp hd => hst _ _ ?_) fun j hj => hj
    rintro ⟨rfl, rfl⟩
    exact (h hd).queue sp hsp ⟨rfl, rfl⟩
  · intro q j o' ho hd
    rcases set₂_cases ho with ⟨rfl, rfl, rfl⟩ | ⟨hne, ho⟩
    · show Covers _ q j (set₂ c.start q j o' q j) o'
      rw [hself]
      exact Covers.empty o'
    · show Covers _ q j (set₂ c.start p i o q j) o'
      rw [hst q j hne]
      exact hs.head q j o' ho hd

omit [DecidableEq ι] in
theorem Passive.mem_queue (h : Passive c c') (hsp : sp ∈ c'.queue) : sp ∈ c.queue := by
  cases h with
  | ack sp' _ hq | ackIdle sp' _ hq => exact hq ▸ mem_cons_of_mem sp' hsp
  | cancel q hq => exact hq.subset hsp
  | crash => cases hsp
  | _ => exact hsp

omit [DecidableEq ι] in
/-- Every table after the step was one before it, but for an acknowledgement. -/
theorem Passive.tables (h : Passive c c') (ht : t ∈ c'.tables) :
    t ∈ c.tables ∨ ∃ sp rest, c.queue = sp :: rest ∧ c'.acked = c.acked ++ [sp] ∧
      t = set c.pos sp.path (some (sp.file, sp.hi)) := by
  cases h with
  | ack sp rest hq =>
    rcases mem_tables.mp ht with h | h | h
    · exact .inr ⟨sp, rest, hq, rfl, h⟩
    · exact .inl (mem_tables.mpr (.inr (.inl h)))
    · exact .inl (mem_tables.mpr (.inr (.inr h)))
  | ackIdle | cancel => exact .inl ht
  | snapshot =>
    left
    rcases mem_tables.mp ht with h | h | h
    · exact mem_tables.mpr (.inl h)
    · exact mem_tables.mpr (.inr (.inl h))
    · exact mem_tables.mpr (.inl (some.inj h).symm)
  | save t' ht' =>
    left
    rcases mem_tables.mp ht with h | h | h
    · exact mem_tables.mpr (.inl h)
    · exact mem_tables.mpr (.inr (.inr (h ▸ ht')))
    · cases h
  | abandon =>
    left
    rcases mem_tables.mp ht with h | h | h
    · exact mem_tables.mpr (.inl h)
    · exact mem_tables.mpr (.inr (.inl h))
    · cases h
  | crash =>
    left
    rcases mem_tables.mp ht with h | h | h
    · exact mem_tables.mpr (.inr (.inl h))
    · exact mem_tables.mpr (.inr (.inl h))
    · cases h

omit [DecidableEq ι] in
/-- The tables stay sound under what happens to the spans and the tables. -/
theorem Passive.sound (h : Passive c c') (hs : c.Sound) : c'.Sound := by
  have hstart : c'.start = c.start := by cases h <;> rfl
  have hdead : c'.dead = c.dead := by cases h <;> rfl
  have hdone : c.done ⊆ c'.done := by
    intro x hx
    cases h with
    | ack sp | ackIdle sp => exact hx.imp_left (mem_append_left [sp])
    | _ => exact hx
  -- an acknowledged span is done, and the queue behind it is sound without it
  have hacked : ∀ sp, c'.acked = c.acked ++ [sp] → insert sp c.done ⊆ c'.done := by
    intro sp hack
    refine Set.insert_subset (.inl ?_) hdone
    rw [hack]
    exact mem_append_right _ (mem_singleton_self sp)
  have hrest : ∀ sp rest, c.queue = sp :: rest → c'.acked = c.acked ++ [sp] →
      QueueCovers c.start c.dead c'.done rest := by
    intro sp rest hq hack
    have hqueue := hs.queue
    rw [hq] at hqueue
    exact hqueue.2.mono (hacked sp hack)
  have hahead : ∀ sp rest, c.queue = sp :: rest → c'.acked = c.acked ++ [sp] →
      c.done ∪ {x | x ∈ c.queue} ⊆ c'.done ∪ {x | x ∈ rest} := by
    intro sp rest hq hack x hx
    rcases hx with hx | hx
    · exact .inl (hdone hx)
    · rcases mem_cons.mp (hq ▸ hx : x ∈ sp :: rest) with rfl | hx
      · exact .inl (hacked x hack (Set.mem_insert x _))
      · exact .inr hx
  refine ⟨?_, ?_, ?_⟩
  · intro t ht p i o ho hd
    rw [hstart]
    rw [hdead] at hd
    rcases h.tables ht with ht | ⟨sp, rest, hq, hack, rfl⟩
    · exact (hs.table t ht p i o ho hd).mono hdone
    · rcases set_eq_some ho with ⟨rfl, heq⟩ | ho
      · cases heq
        have hfirst := hs.queue
        rw [hq] at hfirst
        exact (hfirst.1 hd).mono (hacked sp hack)
      · exact (hs.table _ pos_mem_tables p i o ho hd).mono hdone
  · rw [hstart, hdead]
    cases h with
    | ack sp rest hq | ackIdle sp rest hq => exact hrest sp rest hq rfl
    | cancel q hq => exact hs.queue.of_prefix hq
    | crash => trivial
    | _ => exact hs.queue
  · rw [hstart, hdead]
    cases h with
    | ack sp rest hq | ackIdle sp rest hq =>
      exact fun p i o ho hd => (hs.head p i o ho hd).mono (hahead sp rest hq rfl)
    | cancel | crash => exact fun p i o ho => nomatch ho
    | _ => exact hs.head

omit [DecidableEq π] [DecidableEq ι] in
/-- A position may be forgotten, and a reader may have no place or that of its position. -/
theorem Sound.less (hs : c.Sound) {pos : Table π ι} {head : π → ι → Option Nat}
    (hpos : ∀ p i o, pos p = some (i, o) → i ∉ c.dead → c.pos p = some (i, o))
    (hhead : ∀ p i o, head p i = some o → i ∉ c.dead →
      c.head p i = some o ∨ c.pos p = some (i, o)) : Sound { c with pos, head } := by
  refine ⟨fun t ht p i o ho hd => ?_, hs.queue, fun p i o ho hd => ?_⟩
  · rcases mem_tables.mp ht with rfl | ht
    · exact hs.table _ pos_mem_tables p i o (hpos p i o ho hd) hd
    · exact hs.table t (mem_tables.mpr (.inr ht)) p i o ho hd
  · rcases hhead p i o ho hd with ho | ho
    · exact hs.head p i o ho hd
    · exact (hs.table _ pos_mem_tables p i o ho hd).mono Set.subset_union_left

omit [DecidableEq π] [DecidableEq ι] in
theorem done_subset (c : Cursors π ι) (sp : Span π ι) :
    c.done ⊆ done { c with skipped := c.skipped ++ [sp] } :=
  fun _ hx => hx.imp_right (mem_append_left [sp])

/-- Every step keeps the tables sound. -/
theorem Step.sound (h : Step c c') (hs : c.Sound) : c'.Sound := by
  cases h with
  | emit sp h =>
    refine ⟨hs.table, hs.queue.snoc fun hd => hs.head _ _ _ (h hd) hd, ?_⟩
    intro p i o ho hd
    refine hs.advance h ?_ ho hd
    intro x hx
    simp only [Set.mem_insert_iff, Set.mem_union, Set.mem_ofPred_eq, mem_append,
      mem_singleton] at hx ⊢
    tauto
  | skip sp h =>
    have hsub := c.done_subset sp
    refine ⟨fun t ht p i o ho hd => (hs.table t ht p i o ho hd).mono hsub, hs.queue.mono hsub, ?_⟩
    intro p i o ho hd
    refine hs.advance h ?_ ho hd
    intro x hx
    simp only [done, Set.mem_insert_iff, Set.mem_union, Set.mem_ofPred_eq, mem_append,
      mem_singleton] at hx ⊢
    tauto
  | skipLate sp =>
    have hsub := c.done_subset sp
    exact ⟨fun t ht p i o ho hd => (hs.table t ht p i o ho hd).mono hsub, hs.queue.mono hsub,
      fun p i o ho hd => (hs.head p i o ho hd).mono (Set.union_subset_union_left _ hsub)⟩
  | fresh p i o h => exact hs.fresh h
  | resume p i o h =>
    refine hs.less (fun q j o' ho hd => ?_) fun q j o' ho hd => ?_
    · rcases set_eq_some ho with ⟨rfl, heq⟩ | ho
      · cases heq
        exact h hd
      · exact ho
    · rcases set₂_cases ho with ⟨rfl, rfl, rfl⟩ | ⟨-, ho⟩
      · exact .inr (h hd)
      · exact .inl ho
  | rewind p i o h =>
    refine hs.less (fun _ _ _ ho _ => ho) fun q j o' ho hd => ?_
    rcases set₂_cases ho with ⟨rfl, rfl, rfl⟩ | ⟨-, ho⟩
    · exact absurd h hd
    · exact .inl ho
  | close =>
    refine hs.less (fun _ _ _ ho _ => ho) fun q j o' ho _ => .inl ?_
    simp only [set₂] at ho
    split at ho
    · cases ho
    · exact ho
  | forget => exact hs.less (fun _ _ _ ho _ => set_none_eq_some ho) fun _ _ _ ho _ => .inl ho
  | die i =>
    exact ⟨fun t ht p j o ho hd => hs.table t ht p j o ho fun h => hd (mem_cons_of_mem i h),
      hs.queue.congr (fun _ _ _ => rfl) fun j hj => mem_cons_of_mem i hj,
      fun p j o ho hd => hs.head p j o ho fun h => hd (mem_cons_of_mem i h)⟩
  | passive h => exact h.sound hs

theorem sound_of_steps (h : Relation.ReflTransGen Step c c') (hs : c.Sound) : c'.Sound := by
  induction h with
  | refl => exact hs
  | tail _ hstep ih => exact hstep.sound ih

/-! ## What the tables and the queue are about -/

/-- A table that can still be read holds the position, or an acknowledgement to
come will set it. -/
def Claims (c : Cursors π ι) (p : π) (i : ι) (o : Nat) : Prop :=
  (∃ t ∈ c.tables, t p = some (i, o)) ∨ ∃ sp ∈ c.queue, sp.path = p ∧ sp.file = i ∧ sp.hi = o

def Uniform (c : Cursors π ι) (p : π) : Prop := ∀ t ∈ c.tables, t p = c.saved p

omit [DecidableEq π] [DecidableEq ι] in
theorem unmentioned_of_claims (h : ∀ o, ¬ c.Claims p i o) : c.Unmentioned p i := by
  refine ⟨fun o ho => ?_, fun t ht o ho => ?_, fun sp hsp hpi => ?_⟩
  · exact h o (.inl ⟨_, saved_mem_tables, ho⟩)
  · exact h o (.inl ⟨t, mem_tables.mpr (.inr (.inr ht)), ho⟩)
  · exact h sp.hi (.inr ⟨sp, hsp, hpi.1, hpi.2, rfl⟩)

omit [DecidableEq π] [DecidableEq ι] in
theorem Claims.of_less {pos : Table π ι} {head : π → ι → Option Nat}
    (hpos : ∀ p x, pos p = some x → c.pos p = some x) (h : Claims { c with pos, head } p i o) :
    c.Claims p i o := by
  rcases h with ⟨t, ht, ho⟩ | hq
  · rcases mem_tables.mp ht with rfl | ht
    · exact .inl ⟨_, pos_mem_tables, hpos p _ ho⟩
    · exact .inl ⟨t, mem_tables.mpr (.inr ht), ho⟩
  · exact .inr hq

omit [DecidableEq ι] in
theorem Passive.claims (h : Passive c c') (hc : c'.Claims p i o) : c.Claims p i o := by
  rcases hc with ⟨t, ht, ho⟩ | ⟨sp, hsp, hpi⟩
  · rcases h.tables ht with ht | ⟨sp, rest, hq, -, rfl⟩
    · exact .inl ⟨t, ht, ho⟩
    · rcases set_eq_some ho with ⟨rfl, heq⟩ | ho
      · cases heq
        exact .inr ⟨sp, hq ▸ mem_cons_self, rfl, rfl, rfl⟩
      · exact .inl ⟨_, pos_mem_tables, ho⟩
  · exact .inr ⟨sp, h.mem_queue hsp, hpi⟩

omit [DecidableEq ι] in
/-- On a path that no span in the queue is about the tables go on to agree. -/
theorem Passive.tables_same (h : Passive c c') (hu : c.Uniform p) (hq : ∀ sp ∈ c.queue, sp.path ≠ p)
    (ht : t ∈ c'.tables) : t p = c.saved p := by
  rcases h.tables ht with ht | ⟨sp, rest, hsp, -, rfl⟩
  · exact hu t ht
  · show (if p = sp.path then _ else c.pos p) = c.saved p
    rw [if_neg fun he => hq sp (hsp ▸ mem_cons_self) he.symm]
    exact hu _ pos_mem_tables

omit [DecidableEq ι] in
theorem Passive.uniform (h : Passive c c') (hu : c.Uniform p) (hq : ∀ sp ∈ c.queue, sp.path ≠ p) :
    c'.Uniform p := by
  intro t ht
  rw [h.tables_same hu hq ht, h.tables_same hu hq saved_mem_tables]

end Cursors

end YominsAgent.Lib

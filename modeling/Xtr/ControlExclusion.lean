import Xtr.Control

/-!
# One producer at a time

As long as the posts of `control_.sync()` do not overlap with other posts (`Guarded`), at
most one thread is between `write_span` and `reduce_writable`, and the consumer receives
every record exactly once and as it was posted (`control_posts_delivered`).  The mutex
takes care of the other posts.  Without it two threads write to the same cells
(`sync_overlaps_post`).
-/
namespace Xtr.Control
variable {n : Nat} {cfg : Config} {s s' : State n} {t : Fin n} {p : Post}

/-- From the taking of the mutex to its release. -/
def Pc.posting : Pc → Option Post
  | .writeSpanSpec p | .writeSpan p _ | .copy p _ _ | .reduceWritable p _ | .unlock p => some p
  | .idle | .lock _ | .wait => none

theorem Pc.posting_of_inside {pc : Pc} (h : pc.inside = some p) : pc.posting = some p := by
  cases pc <;> first | exact h | cases h

/-- The record of a command. -/
def record (cfg : Config) (c : Command) : Record Unit Unit Command := .command c (cfg.closure c)

/-- What a thread that is inside has prepared: it knows the write position, has room for
its record there, or has written it. -/
def Prepared (cfg : Config) (ring : Ring) : Pc → Prop
  | .writeSpan _ addr => addr = cfg.base + ring.writeBegin
  | .copy p addr span => addr = cfg.base + ring.writeBegin ∧ span.begin = ring.writeBegin ∧
      recordSize cfg p addr ≤ ring.writable
  | .reduceWritable p size =>
      (record cfg p.command).Holds cfg.order (ring.readAt cfg.base) (cfg.base + ring.writeBegin) ∧
      size = recordSize cfg p (cfg.base + ring.writeBegin) ∧ size ≤ ring.writable
  | .idle | .lock _ | .writeSpanSpec _ | .unlock _ | .wait => True

theorem Prepared.of_outside {ring : Ring} {pc : Pc} (h : pc.inside = none) :
    Prepared cfg ring pc := by
  cases pc <;> trivial

/-- The consumer's position. -/
def ReaderOk (cfg : Config) (s : State n) (W R P : Nat) : Prop :=
  match s.reader with
  | none => P = R
  | some (span, pos) => Reading cfg.base s.ring W R P span pos

theorem ReaderOk.congr {W W' R P : Nat} (h : ReaderOk cfg s W R P) (hreader : s'.reader = s.reader)
    (hz : s'.ring.sizing = s.ring.sizing) (hW : W ≤ W') : ReaderOk cfg s' W' R P := by
  unfold ReaderOk at h ⊢
  rw [hreader]
  split
  · rename_i hnone
    rwa [hnone] at h
  · rename_i hsome
    rw [hsome] at h
    exact h.congr hz hW

/-- The ring holds the records that were posted and not received. -/
def Delivers (cfg : Config) (s : State n) : Prop :=
  ∃ W R P frs, Queue cfg.order cfg.base s.ring W R P frs ∧ ReaderOk cfg s W R P ∧
    s.posted.map .command = s.received.map .command ++ frs.map Frame.invocation

/-- **The invariant.** -/
structure Inv (cfg : Config) (s : State n) : Prop where
  delivers : Delivers cfg s
  sizing : s.ring.sizing = cfg.sizing
  fault : s.fault = false
  locks : ∀ t p, (s.pc t).posting = some p → p.guarded = true → s.mutex = some t
  unlocks : ∀ t p, s.pc t = .unlock p → p.guarded = true
  alone : ∀ t t', (s.pc t).inside ≠ none → (s.pc t').inside ≠ none → t = t'
  prepared : ∀ t, Prepared cfg s.ring (s.pc t)

theorem setPc_self (s : State n) (t : Fin n) (pc : Pc) : (s.setPc t pc).pc t = pc :=
  Function.update_self ..

theorem setPc_of_ne (s : State n) {t t' : Fin n} (pc : Pc) (h : t' ≠ t) :
    (s.setPc t pc).pc t' = s.pc t' :=
  Function.update_of_ne h ..

/-! ## Threads -/

/-- Thread `t` goes on to `pc`, and the ring's invariant is kept. -/
theorem Inv.move (h : Inv cfg s) {pc : Pc} (hpc : s'.pc = (s.setPc t pc).pc)
    (hdel : Delivers cfg s') (hsizing : s'.ring.sizing = cfg.sizing) (hfault : s'.fault = false)
    (hlocks : ∀ p, pc.posting = some p → p.guarded = true → s'.mutex = some t)
    (hother : ∀ t', t' ≠ t → ∀ p, (s.pc t').posting = some p → p.guarded = true →
      s'.mutex = some t')
    (hunlock : ∀ p, pc = .unlock p → p.guarded = true)
    (halone : pc.inside ≠ none → ∀ t', t' ≠ t → (s.pc t').inside = none)
    (hprep : Prepared cfg s'.ring pc)
    (hprep' : ∀ t', t' ≠ t → Prepared cfg s'.ring (s.pc t')) : Inv cfg s' := by
  have hself : s'.pc t = pc := by rw [hpc, setPc_self]
  have hne : ∀ t', t' ≠ t → s'.pc t' = s.pc t' := fun t' ht' => by rw [hpc, setPc_of_ne s pc ht']
  refine ⟨hdel, hsizing, hfault, fun t' p hp hg => ?_, fun t' p hp => ?_, fun t₁ t₂ h₁ h₂ => ?_,
    fun t' => ?_⟩
  · by_cases ht' : t' = t
    · subst ht'
      rw [hself] at hp
      exact hlocks p hp hg
    · rw [hne t' ht'] at hp
      exact hother t' ht' p hp hg
  · by_cases ht' : t' = t
    · rw [ht', hself] at hp
      exact hunlock p hp
    · rw [hne t' ht'] at hp
      exact h.unlocks t' p hp
  · by_cases ht₁ : t₁ = t
    · by_cases ht₂ : t₂ = t
      · rw [ht₁, ht₂]
      · rw [ht₁, hself] at h₁
        rw [hne t₂ ht₂] at h₂
        exact absurd (halone h₁ t₂ ht₂) h₂
    · by_cases ht₂ : t₂ = t
      · rw [ht₂, hself] at h₂
        rw [hne t₁ ht₁] at h₁
        exact absurd (halone h₂ t₁ ht₁) h₁
      · rw [hne t₁ ht₁] at h₁
        rw [hne t₂ ht₂] at h₂
        exact h.alone t₁ t₂ h₁ h₂
  · by_cases ht' : t' = t
    · rw [ht', hself]
      exact hprep
    · rw [hne t' ht']
      exact hprep' t' ht'

/-- While thread `t` is inside, no other is. -/
theorem Inv.outside (h : Inv cfg s) (ht : (s.pc t).inside ≠ none) {t' : Fin n} (hne : t' ≠ t) :
    (s.pc t').inside = none := by
  by_contra hin
  exact hne (h.alone t' t hin ht)

/-- A step that leaves the ring alone and does not enter. -/
theorem Inv.pass (h : Inv cfg s) {pc : Pc} {mutex : Option (Fin n)} {notified : Fin n → Bool}
    (houtside : pc.inside = none) (hunlock : ∀ p, pc ≠ .unlock p)
    (hlocks : ∀ p, pc.posting = some p → p.guarded = true → mutex = some t)
    (hother : ∀ t', t' ≠ t → ∀ p, (s.pc t').posting = some p → p.guarded = true →
      mutex = some t') :
    Inv cfg { s.setPc t pc with mutex := mutex, notified := notified } :=
  h.move rfl h.delivers h.sizing h.fault hlocks hother (fun p hp => absurd hp (hunlock p))
    (fun hin => absurd houtside hin) (.of_outside houtside) fun t' _ => h.prepared t'

theorem Inv.lock (h : Inv cfg s) (hmutex : s.mutex = none) :
    Inv cfg { s.setPc t (.writeSpanSpec p) with mutex := some t } := by
  refine h.pass rfl nofun (fun _ _ _ => rfl) fun t' _ p' hp' hg => ?_
  rw [h.locks t' p' hp' hg] at hmutex
  cases hmutex

theorem Inv.unlock (h : Inv cfg s) (hpc : s.pc t = .unlock p) :
    Inv cfg { s.setPc t (if p.thenSync then .writeSpanSpec (syncPost t) else .idle) with
      mutex := none, notified := Function.update s.notified t false } := by
  have hother : ∀ t', t' ≠ t → ∀ p', (s.pc t').posting = some p' → p'.guarded = true →
      none = some t' := by
    intro t' hne p' hp' hg
    have hmine := h.locks t p (by rw [hpc]; rfl) (h.unlocks t p hpc)
    rw [h.locks t' p' hp' hg] at hmine
    exact absurd (Option.some.inj hmine) hne
  cases p.thenSync with
  | true =>
    refine h.pass rfl nofun (fun p' hp' hg => ?_) hother
    cases hp'
    cases hg
  | false => exact h.pass rfl nofun nofun hother

/-- A thread enters: under the mutex it is the only one, and `control_.sync()` does not
overlap by assumption. -/
theorem Inv.enter (h : Inv cfg s) (hpc : s.pc t = .writeSpanSpec p)
    (hguarded : Guarded s (.thread t)) {pc : Pc} (hposting : pc.posting = some p)
    (hunlock : ∀ p, pc ≠ .unlock p) (hprep : Prepared cfg s.ring pc) :
    Inv cfg (s.setPc t pc) := by
  refine h.move rfl h.delivers h.sizing h.fault (fun p' hp' hg => ?_)
    (fun t' _ p' hp' hg => h.locks t' p' hp' hg) (fun p hp => absurd hp (hunlock p))
    (fun _ t' hne => ?_) hprep fun t' _ => h.prepared t'
  · rw [hposting] at hp'
    cases hp'
    exact h.locks t p (by rw [hpc]; rfl) hg
  · cases hin : (s.pc t').inside with
    | none => rfl
    | some p' =>
      -- both posts are under the mutex, which both threads would hold
      have hall : ∀ t', t' ≠ t →
          ((s.pc t').inside.all fun p' => p.guarded && p'.guarded) = true := by
        simpa [Guarded, begins, hpc] using hguarded
      obtain ⟨hg, hg'⟩ : p.guarded = true ∧ p'.guarded = true := by
        simpa [hin] using hall t' hne
      have hmine := h.locks t p (by rw [hpc]; rfl) hg
      rw [h.locks t' p' (Pc.posting_of_inside hin) hg'] at hmine
      exact absurd (Option.some.inj hmine) hne

/-- A thread that is inside goes on: it may change the ring. -/
theorem Inv.goOn (h : Inv cfg s) (hin : (s.pc t).inside = some p) {pc : Pc} {ring : Ring}
    {posted : List Command} (hposting : ∀ p', pc.posting = some p' → p' = p)
    (hunlock : ∀ p', pc = .unlock p' → p'.guarded = true)
    (hsizing : ring.sizing = s.ring.sizing) (hprep : Prepared cfg ring pc)
    (hdel : Delivers cfg { s.setPc t pc with ring := ring, posted := posted }) :
    Inv cfg { s.setPc t pc with ring := ring, posted := posted } := by
  have hout : ∀ t', t' ≠ t → (s.pc t').inside = none :=
    fun t' hne => h.outside (by rw [hin]; exact Option.some_ne_none p) hne
  refine h.move rfl hdel (hsizing.trans h.sizing) h.fault (fun p' hp' hg => ?_)
    (fun t' _ p' hp' hg => h.locks t' p' hp' hg) hunlock (fun _ => hout) hprep
    fun t' hne => .of_outside (hout t' hne)
  obtain rfl := hposting p' hp'
  exact h.locks t p' (Pc.posting_of_inside hin) hg

/-- The records are those they were. -/
theorem Delivers.ring (h : Delivers cfg s) {ring : Ring} {pc : Pc}
    (hq : ∀ W R P frs, Queue cfg.order cfg.base s.ring W R P frs →
      Queue cfg.order cfg.base ring W R P frs)
    (hz : ring.sizing = s.ring.sizing) : Delivers cfg { s.setPc t pc with ring := ring } := by
  obtain ⟨W, R, P, frs, hqueue, hreader, heq⟩ := h
  exact ⟨W, R, P, frs, hq W R P frs hqueue, hreader.congr rfl hz (Nat.le_refl W), heq⟩

/-- A round of `write_span`. -/
theorem Inv.writeSpan (h : Inv cfg s) {addr : Nat} (hpc : s.pc t = .writeSpan p addr)
    (hs : threadStep cfg s t = some s') : Inv cfg s' := by
  have hprep := h.prepared t
  rw [hpc] at hprep
  have haddr : addr = cfg.base + s.ring.writeBegin := hprep
  have hin : (s.pc t).inside = some p := by rw [hpc]; rfl
  have hdel : ∀ pc, Delivers cfg { s.setPc t pc with ring := s.ring.acquire } := fun pc =>
    h.delivers.ring (fun W R P frs hq => hq.acquire) rfl
  by_cases hroom : s.ring.acquire.writable < recordSize cfg p addr
  -- too little room: the load is all that happened
  · have hsame : s.setPc t (.writeSpan p addr) = s := by
      rw [← hpc]
      simp [State.setPc]
    have hstep : threadStep cfg s t =
        some { s.setPc t (.writeSpan p addr) with ring := s.ring.acquire } := by
      rw [hsame]
      simp [threadStep, hpc, RingBuffer.writeSpan, hroom]
    rw [hstep] at hs
    cases hs
    exact h.goOn hin (fun p' hp' => by cases hp'; rfl) (fun p' hp' => by cases hp') rfl haddr
      (hdel _)
  · have hstep : threadStep cfg s t = some { s.setPc t
        (.copy p addr s.ring.acquire.writeSpanNow) with ring := s.ring.acquire } := by
      simp [threadStep, hpc, RingBuffer.writeSpan, hroom, State.setPc]
    rw [hstep] at hs
    cases hs
    exact h.goOn hin (fun p' hp' => by cases hp'; rfl) (fun p' hp' => by cases hp') rfl
      ⟨haddr, rfl, Nat.not_lt.mp hroom⟩ (hdel _)

theorem Inv.writeSpanSpec (h : Inv cfg s) (hpc : s.pc t = .writeSpanSpec p)
    (hguarded : Guarded s (.thread t)) (hs : threadStep cfg s t = some s') : Inv cfg s' := by
  by_cases hroom : s.ring.writable < recordSize cfg p (cfg.base + s.ring.writeBegin)
  · have hstep : threadStep cfg s t =
        some (s.setPc t (.writeSpan p (cfg.base + s.ring.writeBegin))) := by
      simp [threadStep, hpc, RingBuffer.writeSpan, RingBuffer.writeSpanNow, hroom]
    rw [hstep] at hs
    cases hs
    exact h.enter hpc hguarded rfl (fun p' hp' => by cases hp') rfl
  · have hstep : threadStep cfg s t =
        some (s.setPc t (.copy p (cfg.base + s.ring.writeBegin) s.ring.writeSpanNow)) := by
      simp [threadStep, hpc, RingBuffer.writeSpan, RingBuffer.writeSpanNow, hroom]
    rw [hstep] at hs
    cases hs
    exact h.enter hpc hguarded rfl (fun p' hp' => by cases hp')
      ⟨rfl, rfl, Nat.not_lt.mp hroom⟩

/-- The record is copied into free cells. -/
theorem copyRecord_spec {ring : Ring} {W R P : Nat} {frs : List (Frame Unit Unit Command)}
    (hq : Queue cfg.order cfg.base ring W R P frs) {addr : Nat} {span : Span}
    (haddr : addr = cfg.base + ring.writeBegin) (hspan : span.begin = ring.writeBegin)
    (hroom : recordSize cfg p addr ≤ ring.writable) :
    (record cfg p.command).Holds cfg.order
      ((copyRecord cfg ring p addr span).readAt cfg.base) addr ∧
      Queue cfg.order cfg.base (copyRecord cfg ring p addr span) W R P frs := by
  have hbegin := hq.writeBegin
  obtain ⟨S, hc, -⟩ := hq.counts
  have hw := hc.writable
  have hstale := hc.stale
  have hread := hc.read_le
  have hfunc := le_funcPos addr (cfg.closure p.command)
  have hal : (cfg.closure p.command).size ≤ align (cfg.closure p.command).size fptrSize :=
    le_align (by decide)
  have hsize : recordSize cfg p addr = funcPos addr (cfg.closure p.command) +
      align (cfg.closure p.command).size fptrSize - addr := rfl
  have hfst : cfg.base + span.begin = addr := by rw [haddr, hspan]
  obtain ⟨hholds, hsame⟩ : (record cfg p.command).Holds cfg.order
      ((copyRecord cfg ring p addr span).readAt cfg.base) addr ∧
      SameOutside cfg.base addr addr (funcPos addr (cfg.closure p.command) +
        (cfg.closure p.command).size) ring (copyRecord cfg ring p addr span) := by
    unfold copyRecord
    rw [hfst]
    exact storeRecord_spec cfg.order (by omega) (by omega) rfl rfl nofun
  refine ⟨hholds, hq.overwrite rfl hroom (fun b hpb hb hout => ?_)
    fun S hc => (hc.store _ _).store _ _⟩
  rw [← hbegin, ← haddr] at hpb hb hout
  exact hsame b hpb hb (by omega)

theorem Inv.copy (h : Inv cfg s) {addr : Nat} {span : Span} (hpc : s.pc t = .copy p addr span) :
    Inv cfg { s.setPc t (.reduceWritable p (recordSize cfg p addr)) with
      ring := copyRecord cfg s.ring p addr span } := by
  have hprep := h.prepared t
  rw [hpc] at hprep
  obtain ⟨haddr, hspan, hroom⟩ := hprep
  obtain ⟨W, R, P, frs, hq, -⟩ := h.delivers
  have hholds := (copyRecord_spec hq haddr hspan hroom).1
  refine h.goOn (by rw [hpc]; rfl) (fun p' hp' => by cases hp'; rfl) nofun rfl ?_ ?_
  · exact ⟨haddr ▸ hholds, congrArg (recordSize cfg p) haddr, hroom⟩
  · exact h.delivers.ring (fun W R P frs hq => (copyRecord_spec hq haddr hspan hroom).2) rfl

/-- **The record is published.** -/
theorem Inv.reduceWritable (h : Inv cfg s) {size : Nat} (hpc : s.pc t = .reduceWritable p size) :
    Inv cfg { s.setPc t (if p.guarded then .unlock p else .wait) with
      ring := s.ring.reduceWritable size, posted := s.posted ++ [p.command] } := by
  have hprep := h.prepared t
  rw [hpc] at hprep
  obtain ⟨hholds, hsize, hroom⟩ := hprep
  obtain ⟨W, R, P, frs, hq, hreader, heq⟩ := h.delivers
  -- what was copied stands where the writer's counter is
  have hframe : FrameAt cfg.order cfg.base s.ring W ⟨.command p.command, size⟩ := by
    rw [hq.writeBegin] at hholds hsize
    have h8 := hq.grid.record8
    refine ⟨record cfg p.command, cfg.closure_pos p.command, hholds, hsize.symm, ?_, rfl⟩
    show 8 ∣ size
    rw [hsize]
    exact Nat.dvd_sub (Nat.dvd_add (funcPos_dvd h8 _) (dvd_align _ _)) h8
  refine h.goOn (by rw [hpc]; rfl) ?_ ?_ rfl ?_ ⟨W + size, R, P, _, hq.publish hframe hroom,
    hreader.congr rfl rfl (Nat.le_add_right W size), ?_⟩
  · cases hg : p.guarded with
    | true => exact fun p' hp' => by cases hp'; rfl
    | false => nofun
  · cases hg : p.guarded with
    | true => exact fun p' hp' => by cases hp'; exact hg
    | false => nofun
  · cases p.guarded <;> trivial
  · show (s.posted ++ [p.command]).map _ = s.received.map _ ++ _
    rw [List.map_append, heq, List.map_append, List.append_assoc]
    rfl

/-! ## The consumer -/

/-- The consumer's steps do not concern the threads. -/
theorem Inv.consumer (h : Inv cfg s) {n : Nat} {notified : Fin _ → Bool}
    {reader : Option (Span × Nat)} {received : List Command}
    (hdel : Delivers cfg { s with
      ring := s.ring.reduceReadable n, notified := notified, reader := reader
      received := received }) :
    Inv cfg { s with
      ring := s.ring.reduceReadable n, notified := notified, reader := reader
      received := received } := by
  refine ⟨hdel, h.sizing, h.fault, h.locks, h.unlocks, h.alone, fun t => ?_⟩
  have hprep := h.prepared t
  show Prepared cfg (s.ring.reduceReadable n) (s.pc t)
  cases hpc : s.pc t <;> rw [hpc] at hprep <;> exact hprep

/-- The next record is the next one posted. -/
theorem Delivers.next {fr : Frame Unit Unit Command} {frs : List (Frame Unit Unit Command)}
    (heq : s.posted.map .command =
      s.received.map .command ++ (fr :: frs).map Frame.invocation) :
    ∃ c, fr.invocation = .command c := by
  have hmem : fr.invocation ∈ s.posted.map (.command : Command → Invocation Unit Unit Command) := by
    rw [heq, List.map_cons]
    exact List.mem_append_right _ List.mem_cons_self
  obtain ⟨c, -, hc⟩ := List.mem_map.mp hmem
  exact ⟨c, hc.symm⟩

theorem Inv.consume (h : Inv cfg s) (hs : consume cfg s = some s') : Inv cfg s' := by
  obtain ⟨W, R, P, frs, hq, hreader, heq⟩ := h.delivers
  unfold ReaderOk at hreader
  cases hr : s.reader with
  | none =>
    rw [hr] at hreader
    obtain rfl : P = R := hreader
    simp only [Control.consume, hr] at hs
    -- a new span is taken when all that was executed is released
    obtain ⟨hne, hs⟩ := Option.ite_none_left_eq_some.mp hs
    cases hs
    exact ⟨⟨W, P, P, frs, hq, hq.reading_start, heq⟩, h.sizing, h.fault, h.locks, h.unlocks,
      h.alone, h.prepared⟩
  | some sp =>
    obtain ⟨span, pos⟩ := sp
    rw [hr] at hreader
    have hreader : Reading cfg.base s.ring W R P span pos := hreader
    have hread := hq.read_le
    have hcap : s.ring.capacity = cfg.sizing.capacity := congrArg Sizing.capacity h.sizing
    by_cases hmore : pos < batchEnd cfg span
    · obtain ⟨fr, frs, rfl, htramp⟩ := hq.next_reading hreader (by rw [hcap]; exact hmore)
      -- the next record is one that was posted, so the trampoline finds a command
      obtain ⟨c, hc⟩ := Delivers.next heq
      have hstep : Control.consume cfg s =
          some { receive s c with reader := some (span, pos + fr.size) } := by
        simp [Control.consume, hr, hmore, htramp, hc]
      rw [hstep] at hs
      cases hs
      refine ⟨⟨W, R, P + fr.size, frs, hq.advance, hreader.advance hread, ?_⟩, h.sizing, h.fault,
        h.locks, h.unlocks, h.alone, h.prepared⟩
      show s.posted.map _ = (s.received ++ [c]).map _ ++ _
      rw [heq, List.map_append, List.map_cons, hc, List.append_assoc]
      rfl
    · have hstep : Control.consume cfg s = some { s with
          ring := s.ring.reduceReadable (pos - (cfg.base + span.begin)), reader := none } := by
        simp [Control.consume, hr, hmore]
      rw [hstep] at hs
      cases hs
      have hn : pos - (cfg.base + span.begin) = P - R := by
        have hbegin := hreader.begin
        have hpos := hreader.pos
        omega
      rw [hn]
      exact h.consumer ⟨W, P, P, frs, hq.release, rfl, heq⟩

/-! ## Runs -/

theorem Inv.initial (mem : Nat → Cell Unit Unit Command) : Inv cfg (initial cfg mem : State n) := by
  refine ⟨⟨0, 0, 0, [], ?_, rfl, rfl⟩, rfl, rfl, nofun, nofun, fun t t' h => absurd rfl h,
    fun _ => trivial⟩
  exact ⟨⟨cfg.base8, cfg.capacity8, cfg.capacity_lt, ⟨0, rfl⟩⟩, ⟨0, .make _ _, ⟨0, rfl⟩⟩, ⟨0, rfl⟩,
    Nat.le_refl 0, trivial, rfl⟩

/-- **Every event that meets the condition keeps the invariant.** -/
theorem Inv.step {e : Event n} (h : Inv cfg s) (hg : Guarded s e) (hs : step cfg s e = some s') :
    Inv cfg s' := by
  cases e with
  | call t c =>
    obtain ⟨hpc, hs⟩ := Option.ite_none_right_eq_some.mp hs
    cases hs
    exact h.pass rfl nofun nofun fun t' _ p' hp' hg => h.locks t' p' hp' hg
  | consume => exact h.consume hs
  | thread t =>
    have hs : threadStep cfg s t = some s' := hs
    cases hpc : s.pc t with
    | idle => simp [threadStep, hpc] at hs
    | lock p =>
      simp only [threadStep, hpc] at hs
      obtain ⟨hmutex, hs⟩ := Option.ite_none_right_eq_some.mp hs
      cases hs
      exact h.lock hmutex
    | writeSpanSpec p => exact h.writeSpanSpec hpc hg hs
    | writeSpan p addr => exact h.writeSpan hpc hs
    | copy p addr span =>
      simp only [threadStep, hpc, Option.some.injEq] at hs
      exact hs ▸ h.copy hpc
    | reduceWritable p size =>
      simp only [threadStep, hpc, Option.some.injEq] at hs
      exact hs ▸ h.reduceWritable hpc
    | unlock p =>
      simp only [threadStep, hpc, Option.some.injEq] at hs
      exact hs ▸ h.unlock hpc
    | wait =>
      simp only [threadStep, hpc] at hs
      obtain ⟨-, hs⟩ := Option.ite_none_right_eq_some.mp hs
      cases hs
      exact h.pass rfl nofun nofun fun t' _ p' hp' hg => h.locks t' p' hp' hg

/-- **One producer at a time, and every record is received.**  In every run in which the
posts of `control_.sync()` overlap with no other post, at most one thread is between
`write_span` and `reduce_writable`; the consumer never calls through anything but a
record, what it received is what was posted so far, in order, and when the queue is empty
it is all of it. -/
theorem control_posts_delivered (h : (machine cfg n).ReachableBy Guarded s) :
    (∀ t t', (s.pc t).inside ≠ none → (s.pc t').inside ≠ none → t = t') ∧ s.fault = false ∧
    s.received <+: s.posted ∧
    (s.reader = none → s.ring.readSpan.size = 0 → s.received = s.posted) := by
  have hi : Inv cfg s := by
    refine h.invariant ?_ ?_
    · rintro s ⟨mem, rfl⟩
      exact .initial mem
    · exact fun s e s' hi hg hs => hi.step hg hs
  obtain ⟨W, R, P, frs, hq, hreader, heq⟩ := hi.delivers
  -- split what was posted at what has been received
  obtain ⟨pre, post, hposted, hpre, hpost⟩ := List.map_eq_append_iff.mp heq
  have hinj : Function.Injective (.command : Command → Invocation Unit Unit Command) :=
    fun _ _ => Invocation.command.inj
  obtain rfl : pre = s.received := List.map_injective_iff.mpr hinj hpre
  refine ⟨hi.alone, hi.fault, ⟨post, hposted.symm⟩, fun hnone hempty => ?_⟩
  obtain rfl : P = R := by
    rwa [ReaderOk, hnone] at hreader
  have hext := hq.extent_eq
  rw [hq.readSpan] at hempty
  have hzero : W - P = 0 := hempty
  cases frs with
  | nil =>
    rw [List.map_nil, List.map_eq_nil_iff] at hpost
    rw [hposted, hpost, List.append_nil]
  | cons fr frs =>
    -- a record takes cells, but the read span has none
    have := hq.frame8.2
    rw [extent_cons] at hext
    omega

/-- A queue of one page. -/
def small : Config where
  order := .backwards
  base := 4096
  sizing := .page
  closure _ := ⟨40, 8, hasSingleBit_8⟩
  base8 := ⟨512, rfl⟩
  capacity8 := Sizing.page_dvd
  capacity_lt := Sizing.page_lt
  closure_pos _ := by decide

/-- Thread `0` sets the command path while thread `1` waits for the mutex; thread `1`
registers its sink once the record of `sync` is posted. -/
theorem control_posts_delivered_turns : ∃ s, (machine small 2).ReachableBy Guarded s ∧
    s.posted = [.setCommandPath [47], .sync 0, .addSink 1 [65]] ∧ s.received = s.posted := by
  have hrun : ((machine small 2).runBy Guarded (initial small fun _ => .byte 0)
      ([Event.call 0 (.setCommandPath [47]), .thread 0, .call 1 (.registerSink 1 [65])] ++
        List.replicate 7 (Event.thread 0) ++ List.replicate 5 (Event.thread 1) ++
        List.replicate 5 Event.consume)).map (fun s =>
          (s.posted, s.reader, s.ring.readSpan.size)) =
      some ([.setCommandPath [47], .sync 0, .addSink 1 [65]], none, 0) := by decide +kernel
  obtain ⟨s, hreach, heq⟩ := Machine.exists_reachableBy hrun ⟨_, rfl⟩
  simp only [Prod.mk.injEq] at heq
  obtain ⟨hposted, hreader, hempty⟩ := heq
  obtain ⟨-, -, -, hall⟩ := control_posts_delivered hreach
  exact ⟨s, hreach, hposted, hall hreader hempty⟩

/-- **`control_.sync()` overlaps with a post under the mutex.**  Thread `0` has set the
command path and released the mutex; thread `1` takes it to register a sink.  Both are
given the same span.  Two records are committed, of which the second is not there: the
consumer executes the one that was written last, and then calls through what lies
behind it. -/
theorem sync_overlaps_post : ∃ s₁ s₂, (machine small 2).Reachable s₁ ∧
    (machine small 2).Reachable s₂ ∧ ((s₁.pc 0).inside ≠ none ∧ (s₁.pc 1).inside ≠ none) ∧
    s₂.posted = [.setCommandPath [47], .sync 0, .addSink 1 [65]] ∧
    s₂.received = [.setCommandPath [47], .addSink 1 [65]] ∧ s₂.fault = true := by
  have hrun₁ : ((machine small 2).run (initial small fun _ => .byte 0)
      ([Event.call 0 (.setCommandPath [47])] ++ List.replicate 5 (Event.thread 0) ++
        [Event.call 1 (.registerSink 1 [65]), .thread 1, .thread 1, .thread 0])).map (fun s =>
          ((s.pc 0).inside, (s.pc 1).inside)) =
      some (some (syncPost 0), some ⟨.addSink 1 [65], true, false⟩) := by decide +kernel
  obtain ⟨s₁, hreach₁, heq₁⟩ := Machine.exists_reachable hrun₁ ⟨_, rfl⟩
  have hrun₂ : ((machine small 2).run (initial small fun _ => .byte 0)
      (([Event.call 0 (.setCommandPath [47])] ++ List.replicate 5 (Event.thread 0) ++
        [Event.call 1 (.registerSink 1 [65]), .thread 1, .thread 1, .thread 0]) ++
        [Event.thread 0, .thread 1, .thread 0, .thread 1, .consume, .consume, .consume,
          .consume])).map (fun s => (s.posted, s.received, s.fault)) =
      some ([.setCommandPath [47], .sync 0, .addSink 1 [65]],
        [.setCommandPath [47], .addSink 1 [65]], true) := by decide +kernel
  obtain ⟨s₂, hreach₂, heq₂⟩ := Machine.exists_reachable hrun₂ ⟨_, rfl⟩
  simp only [Prod.mk.injEq] at heq₁ heq₂
  refine ⟨s₁, s₂, hreach₁, hreach₂, ⟨?_, ?_⟩, heq₂⟩
  · rw [heq₁.1]
    exact Option.some_ne_none _
  · rw [heq₁.2]
    exact Option.some_ne_none _

end Xtr.Control

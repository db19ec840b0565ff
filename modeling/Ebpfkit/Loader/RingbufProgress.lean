-- SUMMARY: A call of the consumer makes at most four accesses for each record, and the ring can be drained from every reachable state.
import Ebpfkit.Loader.RingbufMailbox

/-!
# Progress

How often a call accesses shared memory is bounded by what the producer publishes:
each pass over the published records starts with one load of the producer position
and passes a record at least, or else the call returns. A call that runs alone
therefore returns, and if no record is busy it has drained the ring by then. Busy
records can be settled, so no reachable state is a dead end, whatever calls were
abandoned on the way.
-/

namespace Ebpfkit

/-! ## Accesses of a call -/

def SystemAction.isAccess : SystemAction → Bool
  | .consume _ => true
  | .call | .produce => false

/-- The accesses that a call has made since the consumer stood at the record with
    the number `first`, against the records that it has passed since. An inner loop
    pays for its load of the producer position with its first record. -/
def Budget (first accesses read published : Nat) : Control → Prop
  | .loadConsumerPos => accesses + 4 * first ≤ 4 * read
  | .loadProducerPos _ => accesses + 4 * first ≤ 4 * read + 1
  | .loadHeader l => accesses + 4 * first + l.consumedAny.toNat ≤ 4 * read + 2
  | .callback l _ _ _ => accesses + 4 * first + l.consumedAny.toNat ≤ 4 * read + 3
  | .storeAdvanced l => accesses + 4 * first + l.consumedAny.toNat ≤ 4 * read + 4
  | .storeStopped _ _ => accesses + 4 * first ≤ 4 * published + 1
  | .returned => accesses + 4 * first ≤ 4 * published + 2
  | .panicked => False

section Budget

variable {build : Build} {consumer : RingbufConsumer build.arch} {base : Nat} {s s' : System}
  {regular : List (List UInt8)} {done live : List Record} {first accesses read published : Nat}

/-- With nothing spent, a call can be at any point. -/
theorem FaultInv.budget (h : FaultInv consumer base s regular done live) :
    Budget s.read 0 s.read s.ring.records.length s.control := by
  have hread : s.read ≤ s.ring.records.length := by
    rw [h.read_eq, h.ring.records, List.length_append]
    exact Nat.le_add_right _ _
  have hpanicked : s.control ≠ .panicked := by
    intro hcontrol
    have hconsumer := h.consumer
    rw [hcontrol] at hconsumer
    exact hconsumer
  cases hcontrol : s.control with
  | loadHeader l | callback l _ _ _ | storeAdvanced l =>
    have := Bool.toNat_le l.consumedAny
    simp only [Budget]
    omega
  | panicked => exact absurd hcontrol hpanicked
  | _ =>
    simp only [Budget]
    omega

theorem budget_whileHead {l : Locals} (hread : read ≤ published)
    (h : accesses + 4 * first + l.consumedAny.toNat ≤ 4 * read + 2) :
    Budget first accesses read published (whileHead l) := by
  apply whileHead_rule
  · exact fun _ => h
  · intro _ hany
    simp only [hany, Bool.toNat_true] at h
    simp only [Budget]
    omega
  · intro _ _
    simp only [Budget]
    omega

theorem Budget.mono {published' : Nat} {t : Control} (h : Budget first accesses read published t)
    (hle : published ≤ published') : Budget first accesses read published' t := by
  cases t with
  | storeStopped _ _ | returned =>
    simp only [Budget] at h ⊢
    omega
  | _ => exact h

/-- The bound does not depend on where the call is. -/
theorem FaultInv.accesses_le (h : FaultInv consumer base s regular done live)
    (hbudget : Budget first accesses s.read s.ring.records.length s.control) :
    accesses + 4 * first ≤ 4 * s.ring.records.length + 2 := by
  have hconsumer := h.consumer
  have hlength : s.ring.records.length = s.read + live.length := by
    rw [h.read_eq, h.ring.records, List.length_append]
  cases hcontrol : s.control with
  | callback l _ _ _ =>
    rw [hcontrol] at hbudget hconsumer
    obtain ⟨-, -, -, r, -, hhead, -⟩ := hconsumer
    have hlive := hhead.length_le
    simp only [Budget, List.length_singleton] at hbudget hlive
    omega
  | storeAdvanced l =>
    rw [hcontrol] at hbudget hconsumer
    obtain ⟨-, r, hhead, -⟩ := hconsumer
    have hlive := hhead.length_le
    simp only [Budget, List.length_singleton] at hbudget hlive
    omega
  | panicked =>
    rw [hcontrol] at hbudget
    exact hbudget.elim
  | _ =>
    rw [hcontrol] at hbudget
    simp only [Budget] at hbudget
    omega

variable {pageSize len : Nat}
  (hmapped : mappingLen build.arch consumer.ringSize pageSize = some len)

include hmapped

theorem step_budget {a : Action} {u : Control} (h : FaultInv consumer base s regular done live)
    (hbudget : Budget first accesses s.read s.ring.records.length s.control)
    (hstep : Step build consumer s.control a u) (hanswer : s.Answers consumer.ringSize a) :
    Budget first (accesses + 1)
      (System.read { s.perform consumer.ringSize a with control := u })
      (s.perform consumer.ringSize a).ring.records.length u := by
  have hring := h.ring
  have hconsumer := h.consumer
  have hlength : s.ring.records.length = s.read + live.length := by
    rw [h.read_eq, h.ring.records, List.length_append]
  have hsame : ∀ t, System.read { s with control := t } = s.read := fun _ => rfl
  generalize hcontrol : s.control = t at hstep hconsumer hbudget
  cases hstep with
  | loadConsumerPos value =>
    simp only [Budget, System.perform, hsame] at hbudget ⊢
    omega
  | loadProducerPos pos value =>
    simp only [System.perform, hsame]
    apply budget_whileHead
    · omega
    · simp only [Budget] at hbudget
      simp only [Bool.toNat_false]
      omega
  | loadHeader l rawLen =>
    obtain ⟨r, hhead, hafter⟩ := afterHeader_head consumer hmapped hring hconsumer hanswer
    have hlive := hhead.length_le
    rw [hafter]
    simp only [Budget, List.length_singleton] at hbudget hlive
    change Budget first (accesses + 1) s.read s.ring.records.length _
    cases r.status with
    | busy | committed payload | discarded =>
      simp only [Budget]
      omega
  | callback l dataOffset dataLen recordLen =>
    obtain ⟨hpos, -, -, r, -, hhead, -, -, -, rfl⟩ := hconsumer
    rw [advance_record consumer hring hpos hhead]
    change accesses + 1 + 4 * first + l.consumedAny.toNat ≤ 4 * s.read + 4
    simp only [Budget] at hbudget
    omega
  | storeAdvanced l =>
    obtain ⟨-, r, hhead, -⟩ := hconsumer
    have hlive := hhead.length_le
    rw [h.read_advance hcontrol]
    simp only [Budget, List.length_singleton] at hbudget hlive
    apply budget_whileHead
    · change s.read + 1 ≤ s.ring.records.length
      omega
    · simp only [Bool.toNat_true]
      omega
  | storeStopped pos reason =>
    simp only [Budget, System.perform] at hbudget ⊢
    omega

omit hmapped in
theorem producerStep_records_le {ringSize : Nat} {g g' : RingState}
    (hstep : ProducerStep ringSize g g') : g.records.length ≤ g'.records.length := by
  cases hstep with
  | publish hwritten => simp
  | commit hrecords hbusy => simp [RingState.settle, hrecords]
  | discard hrecords hbusy => simp [RingState.settle, hrecords]
  | _ => exact Nat.le_refl _

theorem run_budget {bs : List SystemAction} (h : FaultInv consumer base s regular done live)
    (hrun : Lts.Run (SystemStep build consumer) SameCall s bs s') :
    (∃ regular' done' live', FaultInv consumer base s' regular' done' live') ∧
      Budget s.read (bs.countP SystemAction.isAccess) s'.read s'.ring.records.length
        s'.control := by
  apply hrun.invariant (fun bs t => (∃ regular done live, FaultInv consumer base t regular done live) ∧
    Budget s.read (bs.countP SystemAction.isAccess) t.read t.ring.records.length t.control)
  · exact ⟨⟨regular, done, live, h⟩, h.budget⟩
  · rintro bs t a u ⟨⟨regular, done, live, h⟩, hbudget⟩ hstep hcall
    refine ⟨(faultStep_simulates hmapped h (.regular hstep)).1, ?_⟩
    rw [List.countP_append]
    cases hstep with
    | call hreturned => exact absurd rfl hcall
    | consume hstep hanswer => exact step_budget hmapped h hbudget hstep hanswer
    | @produce g hstep =>
      obtain ⟨live', h', -⟩ := h.produce hstep
      have hread : { t with ring := g }.read = t.read := h'.read_eq.trans h.read_eq.symm
      rw [hread]
      exact hbudget.mono (producerStep_records_le hstep)

omit hmapped in
/-- A call that has not returned has a next access. -/
theorem FaultInv.exists_consume (h : FaultInv consumer base s regular done live)
    (hcalled : s.control ≠ .returned) :
    ∃ a u, Step build consumer s.control a u ∧ s.Answers consumer.ringSize a := by
  have hconsumer := h.consumer
  cases hcontrol : s.control with
  | loadConsumerPos => exact ⟨_, _, .loadConsumerPos _, rfl⟩
  | loadProducerPos pos => exact ⟨_, _, .loadProducerPos pos _, rfl⟩
  | loadHeader l => exact ⟨_, _, .loadHeader l _, rfl⟩
  | callback l dataOffset dataLen recordLen => exact ⟨_, _, .callback l _ _ _, trivial⟩
  | storeAdvanced l => exact ⟨_, _, .storeAdvanced l, trivial⟩
  | storeStopped pos reason => exact ⟨_, _, .storeStopped pos reason, trivial⟩
  | returned => exact absurd hcontrol hcalled
  | panicked =>
    rw [hcontrol] at hconsumer
    exact hconsumer.elim

end Budget

/-! ## A call alone -/

/-- No producer, and no further call. -/
def Alone (_ : List SystemAction) (a : SystemAction) : Prop := a.isAccess = true

section Alone

variable {build : Build} {consumer : RingbufConsumer build.arch} {base : Nat} {s s' : System}
  {regular : List (List UInt8)} {done live : List Record} {bs : List SystemAction}

theorem run_alone (hrun : Lts.Run (SystemStep build consumer) Alone s bs s') :
    Lts.Run (SystemStep build consumer) SameCall s bs s' ∧
      bs.countP SystemAction.isAccess = bs.length ∧ s'.ring.records = s.ring.records ∧
      s'.ring.producer = s.ring.producer := by
  induction hrun with
  | nil => exact ⟨.nil, rfl, rfl, rfl⟩
  | @snoc bs t u a _ hlast halone ih =>
    obtain ⟨hsame, hcount, hrecords, hproducer⟩ := ih
    have haccess : a.isAccess = true := halone
    cases hlast with
    | call hreturned => exact absurd haccess (by simp [SystemAction.isAccess])
    | produce hstep => exact absurd haccess (by simp [SystemAction.isAccess])
    | @consume a u hstep hanswer =>
      refine ⟨.snoc hsame (.consume hstep hanswer) (by simp [SameCall]), ?_, ?_, ?_⟩
      · rw [List.countP_append, hcount, List.length_append]
        rfl
      · rw [← hrecords]
        exact System.perform_records _ _ a
      · rw [← hproducer]
        cases a <;> rfl

variable {pageSize len : Nat}
  (hmapped : mappingLen build.arch consumer.ringSize pageSize = some len)

include hmapped

/-- A call that runs alone returns. -/
theorem FaultInv.exists_returned (h : FaultInv consumer base s regular done live) :
    ∃ bs s', Lts.Run (SystemStep build consumer) Alone s bs s' ∧ s'.control = .returned := by
  refine @Lts.Run.exists_final _ _ _ _ _ (fun t : System => t.control = .returned)
    (4 * s.ring.records.length + 2) ?_ ?_
  · intro bs t hrun
    obtain ⟨hsame, hcount, hrecords, -⟩ := run_alone hrun
    obtain ⟨⟨regular', done', live', h'⟩, hbudget⟩ := run_budget hmapped h hsame
    have hle := h'.accesses_le hbudget
    rw [hcount, hrecords] at hle
    omega
  · intro bs t hrun hcalled
    obtain ⟨hsame, -, -, -⟩ := run_alone hrun
    obtain ⟨⟨regular', done', live', h'⟩, -⟩ := run_budget hmapped h hsame
    obtain ⟨a, u, hstep, hanswer⟩ := h'.exists_consume hcalled
    exact ⟨.consume a, _, .consume hstep hanswer, rfl⟩

/-- Abandoned calls do not keep the next one from catching up. -/
theorem FaultInv.catchesUp {pre : List Record} (h : FaultInv consumer base s regular done live)
    (hstart : s.control = .loadConsumerPos) (hpre : pre <+: s.ring.records)
    (hsettled : ∀ r ∈ pre, r.status ≠ .busy)
    (hrun : Lts.Run (SystemStep build consumer) SameCall s bs s') :
    (∃ regular' done' live', FaultInv consumer base s' regular' done' live') ∧
      pre <+: s'.ring.records ∧ CatchesUp pre s'.ring.consumerPos s'.control := by
  apply hrun.invariant (fun _ t => (∃ regular done live, FaultInv consumer base t regular done live) ∧
    pre <+: t.ring.records ∧ CatchesUp pre t.ring.consumerPos t.control)
  · refine ⟨⟨regular, done, live, h⟩, hpre, ?_⟩
    rw [hstart]
    trivial
  · rintro bs t a u ⟨⟨regular, done, live, h⟩, hpre, hcatches⟩ hstep hcall
    refine ⟨(faultStep_simulates hmapped h (.regular hstep)).1, ?_⟩
    cases hstep with
    | call hreturned => exact absurd rfl hcall
    | @consume a u hstep hanswer =>
      have hregular : SystemInv consumer base { t with delivered := regular } done live :=
        ⟨h.ring, h.consumer⟩
      have hcaught := step_catchesUp consumer hmapped hregular hpre hsettled hcatches hstep
        (System.answers_delivered hanswer)
      rw [System.perform_delivered] at hcaught
      refine ⟨?_, hcaught⟩
      rw [System.perform_records]
      exact hpre
    | produce hstep =>
      refine ⟨producerStep_keepsSettled hstep pre hpre hsettled, ?_⟩
      have hpos := (producerStep_ringInv h.ring hstep).1
      simp only [hpos]
      exact hcatches

/-- With no busy record, a call that runs alone drains the ring. -/
theorem FaultInv.drained (h : FaultInv consumer base s regular done live)
    (hstart : s.control = .loadConsumerPos) (hsettled : ∀ r ∈ s.ring.records, r.status ≠ .busy)
    (hrun : Lts.Run (SystemStep build consumer) Alone s bs s') (hreturned : s'.control = .returned) :
    s'.ring.consumerPos = s'.ring.producerPos := by
  obtain ⟨hsame, -, hrecords, -⟩ := run_alone hrun
  obtain ⟨⟨regular', done', live', h'⟩, hpre, hcatches⟩ :=
    h.catchesUp hmapped hstart (List.prefix_refl _) hsettled hsame
  rw [hreturned] at hcatches
  have hdone := h'.ring.prefix_done hpre hcatches
  rw [← hrecords, h'.ring.records] at hdone
  -- Everything is passed, so nothing is live.
  have hnone : live' = [] := by
    have hle := hdone.length_le
    rw [List.length_append] at hle
    exact List.eq_nil_of_length_eq_zero (by omega)
  have hchain := h'.ring.published
  rw [hnone] at hchain
  exact hchain

end Alone

/-! ## Draining -/

section Drain

variable {build : Build} {consumer : RingbufConsumer build.arch} {base : Nat} {s s' : System}
  {regular : List (List UInt8)} {done live : List Record}

theorem payloads_settle {pre post : List Record} {r : Record} (hbusy : r.status = .busy) :
    payloads (pre ++ r.settle .discarded :: post) = payloads (pre ++ r :: post) := by
  have hold : r.payload? = none := by simp [Record.payload?, hbusy]
  have hnew : (r.settle .discarded).payload? = none := rfl
  simp only [payloads, List.filterMap_append, List.filterMap_cons, hold, hnew]

/-- The producer completes its reservation, or gives it up. -/
theorem FaultInv.exists_idle (h : FaultInv consumer base s regular done live) :
    ∃ bs s' live', Lts.Run (SystemStep build consumer) Lts.Any s bs s' ∧
      FaultInv consumer base s' regular done live' ∧ s'.ring.producer = .idle ∧
      payloads s'.ring.records = payloads s.ring.records := by
  cases hproducer : s.ring.producer with
  | idle => exact ⟨[], s, live, .nil, h, hproducer, rfl⟩
  | loaded pos =>
    have hstep : ProducerStep consumer.ringSize s.ring _ := .giveUp hproducer
    obtain ⟨live', h', -⟩ := h.produce hstep
    exact ⟨_, _, live', .snoc .nil (.produce hstep) trivial, h', rfl, rfl⟩
  | written r =>
    have hstep : ProducerStep consumer.ringSize s.ring _ := .publish hproducer
    obtain ⟨live', h', -⟩ := h.produce hstep
    refine ⟨_, _, live', .snoc .nil (.produce hstep) trivial, h', rfl, ?_⟩
    simp [payloads, Record.payload?, h.written r hproducer]

/-- The writers discard what is busy. -/
theorem FaultInv.exists_settled (h : FaultInv consumer base s regular done live)
    (hidle : s.ring.producer = .idle) :
    ∃ bs s' live', Lts.Run (SystemStep build consumer) Lts.Any s bs s' ∧
      FaultInv consumer base s' regular done live' ∧ s'.ring.producer = .idle ∧
      (∀ r ∈ s'.ring.records, r.status ≠ .busy) ∧
      payloads s'.ring.records = payloads s.ring.records := by
  generalize hcount : s.ring.records.countP (fun r => r.status = .busy) = n
  induction n generalizing s live with
  | zero =>
    refine ⟨[], s, live, .nil, h, hidle, ?_, rfl⟩
    simpa using List.countP_eq_zero.mp hcount
  | succ n ih =>
    have hpos : 0 < s.ring.records.countP (fun r => r.status = .busy) := by omega
    obtain ⟨r, hmem, hbusy⟩ := List.countP_pos_iff.mp hpos
    have hbusy : r.status = .busy := by simpa using hbusy
    obtain ⟨pre, post, hrecords⟩ := List.append_of_mem hmem
    have hstep : ProducerStep consumer.ringSize s.ring _ := .discard hrecords hbusy
    obtain ⟨live', h', -⟩ := h.produce hstep
    have hless : (pre ++ r.settle .discarded :: post).countP (fun r => r.status = .busy) = n := by
      rw [hrecords] at hcount
      simp only [List.countP_append, List.countP_cons, hbusy, decide_true, if_true] at hcount
      simp only [List.countP_append, List.countP_cons, Record.settle, reduceCtorEq, decide_false,
        Bool.false_eq_true, if_false]
      omega
    obtain ⟨bs, s', live'', hrun, h'', hidle', hsettled, hpayloads⟩ := ih h' hidle hless
    refine ⟨[.produce] ++ bs, s', live'', ?_, h'', hidle', hsettled, ?_⟩
    · exact Lts.Run.append (.snoc .nil (.produce hstep) trivial) hrun
    · rw [hpayloads, hrecords]
      exact payloads_settle hbusy

variable {pageSize len : Nat}
  (hmapped : mappingLen build.arch consumer.ringSize pageSize = some len)

include hmapped

/-- The call in progress returns, and the next one drains the ring. -/
theorem FaultInv.exists_drained_of_settled (h : FaultInv consumer base s regular done live)
    (hidle : s.ring.producer = .idle) (hsettled : ∀ r ∈ s.ring.records, r.status ≠ .busy) :
    ∃ bs s', Lts.Run (SystemStep build consumer) Lts.Any s bs s' ∧ s'.control = .returned ∧
      s'.ring.producer = .idle ∧ s'.ring.consumerPos = s'.ring.producerPos ∧
      s'.ring.records = s.ring.records := by
  obtain ⟨bs, t, hfinish, hreturned⟩ := h.exists_returned hmapped
  obtain ⟨hsame, -, hrecords, hproducer⟩ := run_alone hfinish
  obtain ⟨⟨regular', done', live', h'⟩, -⟩ := run_budget hmapped h hsame
  have hcall : SystemStep build consumer t .call { t with control := .loadConsumerPos } :=
    .call hreturned
  obtain ⟨regular'', done'', live'', hcalled⟩ := (faultStep_simulates hmapped h' (.regular hcall)).1
  obtain ⟨cs, s', hdrain, hreturned'⟩ := hcalled.exists_returned hmapped
  obtain ⟨-, -, hrecords', hproducer'⟩ := run_alone hdrain
  refine ⟨(bs ++ [.call]) ++ cs, s', (hfinish.any.snoc hcall trivial).append hdrain.any, hreturned',
    ?_, ?_, hrecords'.trans hrecords⟩
  · exact hproducer'.trans (hproducer.trans hidle)
  · refine hcalled.drained hmapped rfl ?_ hdrain hreturned'
    rw [← hrecords] at hsettled
    exact hsettled

/-- Complete the reservation, settle what is busy, and drain the ring. -/
theorem FaultInv.exists_drained (h : FaultInv consumer base s regular done live) :
    ∃ bs s', Lts.Run (SystemStep build consumer) Lts.Any s bs s' ∧ s'.control = .returned ∧
      s'.ring.producer = .idle ∧ s'.ring.consumerPos = s'.ring.producerPos ∧
      payloads s'.ring.records = payloads s.ring.records := by
  obtain ⟨bs, t, live', hcomplete, h', hidle, hpayloads⟩ := h.exists_idle
  obtain ⟨cs, u, live'', hsettle, h'', hidle', hsettled, hpayloads'⟩ := h'.exists_settled hidle
  obtain ⟨ds, s', hdrain, hreturned, hproducer, hpos, hrecords⟩ :=
    h''.exists_drained_of_settled hmapped hidle' hsettled
  refine ⟨(bs ++ cs) ++ ds, s', (hcomplete.append hsettle).append hdrain, hreturned, hproducer, hpos,
    ?_⟩
  rw [hrecords, hpayloads', hpayloads]

omit hmapped in
/-- An empty ring takes every record that is smaller than the ring. -/
theorem exists_published {r : Record} (hidle : s.ring.producer = .idle)
    (hempty : s.ring.consumerPos = s.ring.producerPos) (hstart : r.start = s.ring.producerPos)
    (hbusy : r.status = .busy) (hroom : r.len ≤ consumer.ringSize - 1)
    (hbound : s.ring.producerPos + r.len < 2 ^ 63) :
    ∃ bs t, Lts.Run (SystemStep build consumer) Lts.Any s bs t ∧
      t.ring.records = s.ring.records ++ [r] := by
  have hinitial : Lts.Run (SystemStep build consumer) Lts.Any s [] s := .nil
  have hloaded := hinitial.snoc (.produce (.loadConsumerPos hidle)) trivial
  have hfits : s.ring.producerPos + r.len - s.ring.consumerPos ≤ consumer.ringSize - 1 := by
    rw [hempty, Nat.add_sub_cancel_left]
    exact hroom
  have hwritten := hloaded.snoc (.produce (.writeHeader rfl hstart hbusy hfits hbound)) trivial
  have hpublished := hwritten.snoc (.produce (.publish rfl)) trivial
  exact ⟨_, _, hpublished, rfl⟩

end Drain

/-! ## Every reachable state -/

section Reachable

variable (build : Build) (consumer : RingbufConsumer build.arch) {pageSize len base : Nat}
  {bytes : Nat → UInt8} {as : List FaultAction} {s : System}

/-- From every state that is reached, also in the middle of a call and after calls that were
    abandoned, and however the producer goes on: until it returns, a call has a next access, and it
    makes no more than four for each record that is published by then and not passed yet, and two
    more. -/
theorem consumeRingRecords_accesses
    (hmapped : mappingLen build.arch consumer.ringSize pageSize = some len)
    (haligned : base % 8 = 0) (hbound : base < 2 ^ 63)
    (hrun : Lts.Run (FaultStep build consumer) Lts.Any (.initial bytes base) as s) :
    (s.control ≠ .returned → ∃ a s', SystemStep build consumer s (.consume a) s') ∧
    ∀ bs s', Lts.Run (SystemStep build consumer) SameCall s bs s' →
      bs.countP SystemAction.isAccess + 4 * s.read ≤ 4 * s'.ring.records.length + 2 := by
  obtain ⟨⟨regular, done, live, h⟩, -⟩ := run_simulates hmapped haligned hbound hrun
  refine ⟨?_, ?_⟩
  · intro hcalled
    obtain ⟨a, u, hstep, hanswer⟩ := h.exists_consume hcalled
    exact ⟨a, _, .consume hstep hanswer⟩
  · intro bs s' hcall
    obtain ⟨⟨regular', done', live', h'⟩, hbudget⟩ := run_budget hmapped h hcall
    exact h'.accesses_le hbudget

/-- After a record that was delivered twice. -/
theorem consumeRingRecords_accesses_twice :
    ∃ as s, Lts.Run (FaultStep ⟨.bits64, true⟩ pageRing) Lts.Any (.initial (fun _ => 7) 0) as s ∧
      s.delivered = [[7], [7]] ∧
      ∀ bs s', Lts.Run (SystemStep ⟨.bits64, true⟩ pageRing) SameCall s bs s' →
        bs.countP SystemAction.isAccess + 4 * s.read ≤ 4 * s'.ring.records.length + 2 := by
  obtain ⟨as, s, hrun, -, -, -, hdelivered⟩ := exists_redelivery
  have hresult := consumeRingRecords_accesses ⟨.bits64, true⟩ pageRing
    (show mappingLen .bits64 4096 4096 = some 12288 by decide) (by decide) (by decide) hrun
  exact ⟨as, s, hrun, hdelivered, hresult.2⟩

/-- Of a drained ring everything is passed, and each payload was delivered. -/
theorem FaultInv.delivered_of_drained {regular : List (List UInt8)} {done live : List Record}
    (hmapped : mappingLen build.arch consumer.ringSize pageSize = some len)
    (haligned : base % 8 = 0) (hbound : base < 2 ^ 63)
    (hrun : Lts.Run (FaultStep build consumer) Lts.Any (.initial bytes base) as s)
    (h : FaultInv consumer base s regular done live)
    (hempty : s.ring.consumerPos = s.ring.producerPos) :
    ∃ counts, counts.length = (payloads s.ring.records).length ∧ (∀ c ∈ counts, 0 < c) ∧
      s.delivered = Mailbox.repeats counts (payloads s.ring.records) := by
  have hlive : live = [] := by
    apply List.eq_nil_iff_forall_not_mem.mpr
    intro r hr
    have hlow := (h.ring.published.bounds hr).1
    have hhigh := h.ring.start_lt.2 hr
    omega
  have hrecords : recordsBelow s.ring s.ring.consumerPos = s.ring.records := by
    rw [h.ring.recordsBelow_eq, h.ring.records, hlive, List.append_nil]
  obtain ⟨counts, again, haccount, hpassed⟩ := run_account hmapped haligned hbound hrun
  rw [hrecords] at hpassed
  have hnone : again = [] := by
    apply List.eq_nil_iff_forall_not_mem.mpr
    intro payload hpayload
    have hnext := haccount.next payload hpayload
    have hread : s.mailbox.read = s.ring.records.length := by
      change s.read = _
      rw [h.read_eq, h.ring.records, hlive, List.append_nil]
    rw [getElem?_slots] at hnext
    rw [hread, List.getElem?_eq_none (Nat.le_refl _)] at hnext
    cases hnext
  have hlength := haccount.length
  have hlog : s.delivered = Mailbox.repeats counts s.mailbox.passed ++ again := haccount.log
  rw [hpassed] at hlength hlog
  rw [hnone, List.append_nil] at hlog
  exact ⟨counts, hlength, haccount.pos, hlog⟩

/-- From every state that is reached, the ring can be drained: there is a run without any call that
    is abandoned to a state where nothing is in progress and the positions are equal, and any record
    that the ring can hold at all can be published next. By then every record that was committed
    before is delivered, in order and each of them one or more times in a row, and nothing else. -/
theorem consumeRingRecords_canDrain
    (hmapped : mappingLen build.arch consumer.ringSize pageSize = some len)
    (haligned : base % 8 = 0) (hbound : base < 2 ^ 63)
    (hrun : Lts.Run (FaultStep build consumer) Lts.Any (.initial bytes base) as s) :
    ∃ bs s', Lts.Run (SystemStep build consumer) Lts.Any s bs s' ∧ s'.control = .returned ∧
      s'.ring.producer = .idle ∧ s'.ring.consumerPos = s'.ring.producerPos ∧
      (∃ counts, counts.length = (payloads s.ring.records).length ∧ (∀ c ∈ counts, 0 < c) ∧
        s'.delivered = Mailbox.repeats counts (payloads s.ring.records)) ∧
      ∀ r : Record, r.start = s'.ring.producerPos → r.status = .busy →
        r.len ≤ consumer.ringSize - 1 → s'.ring.producerPos + r.len < 2 ^ 63 →
        ∃ cs t, Lts.Run (SystemStep build consumer) Lts.Any s' cs t ∧
          t.ring.records = s'.ring.records ++ [r] := by
  obtain ⟨⟨regular, done, live, h⟩, -⟩ := run_simulates hmapped haligned hbound hrun
  obtain ⟨bs, s', hdrain, hreturned, hidle, hempty, hpayloads⟩ := h.exists_drained hmapped
  refine ⟨bs, s', hdrain, hreturned, hidle, hempty, ?_, ?_⟩
  · have hwhole := hrun.append (hdrain.map FaultAction.regular fun _ _ _ => .regular)
    obtain ⟨⟨regular', done', live', h'⟩, -⟩ := run_simulates hmapped haligned hbound hwhole
    rw [← hpayloads]
    exact h'.delivered_of_drained build consumer hmapped haligned hbound hwhole hempty
  · intro r hstart hbusy hroom hfits
    exact exists_published hidle hempty hstart hbusy hroom hfits

/-- After a record that was delivered twice. -/
theorem consumeRingRecords_canDrain_twice :
    ∃ s bs s', s.delivered = [[7], [7]] ∧
      Lts.Run (SystemStep ⟨.bits64, true⟩ pageRing) Lts.Any s bs s' ∧ s'.control = .returned ∧
      s'.ring.consumerPos = s'.ring.producerPos ∧
      ∃ counts, s'.delivered = Mailbox.repeats counts (payloads s.ring.records) := by
  obtain ⟨as, s, hrun, -, -, -, hdelivered⟩ := exists_redelivery
  obtain ⟨bs, s', hdrain, hreturned, -, hempty, ⟨counts, -, -, hlog⟩, -⟩ :=
    consumeRingRecords_canDrain ⟨.bits64, true⟩ pageRing
      (show mappingLen .bits64 4096 4096 = some 12288 by decide) (by decide) (by decide) hrun
  exact ⟨s, bs, s', hdelivered, hdrain, hreturned, hempty, counts, hlog⟩

end Reachable

end Ebpfkit

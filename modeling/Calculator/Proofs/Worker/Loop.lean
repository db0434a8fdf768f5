import Calculator.Worker
import Mathlib.Data.List.Basic
/-!
What the worker's loop sends, whenever it is stopped. The loop takes up requests in their order until there are no more,
it sees that it is stopped, or one of them crashes; of the responses to these it sends those that it emits before it is
stopped, and a crash is reported behind them, as the last event.
-/
namespace Calculator.Worker

section
variable (handler : Calculator.Request → Emission) (step : Nat)

/-- The step at which the loop looks for a request again when these are done. -/
def stepAfter (step : Nat) : List Calculator.Request → Nat
  | [] => step
  | request :: rest => stepAfter (step + 1 + (handler request).responses.length) rest

/-- The responses to requests that are taken up one after the other, each with the step at which it is emitted. -/
def emitted (step : Nat) : List Calculator.Request → List (Nat × Response)
  | [] => []
  | request :: rest =>
    let responses := (handler request).responses
    (List.range' (step + 1) responses.length).zip responses ++ emitted (step + 1 + responses.length) rest

/-- The crash of the last of these requests, if it crashes. -/
def lastCrash? (requests : List Calculator.Request) : Option Crash :=
  requests.getLast?.bind fun request => (handler request).crash?

/-- These requests are the ones that the loop takes up: each of them before it is stopped, and none behind one that
crashes. Nothing is left over unless the last of them crashes, or the loop is stopped when it looks for the next. -/
structure TakesUp (stopped : Nat → Bool) (requests served : List Calculator.Request) : Prop where
  isPrefix : served <+: requests
  running : ∀ before request after, served = before ++ request :: after → stopped (stepAfter handler step before) = false
  untroubled : ∀ before request after, served = before ++ request :: after → after ≠ [] →
    (handler request).crash? = none
  ended : served = requests ∨ (lastCrash? handler served).isSome ∨ stopped (stepAfter handler step served) = true

theorem map_emitted (requests : List Calculator.Request) :
    (emitted handler step requests).map Prod.snd = requests.flatMap fun request => (handler request).responses := by
  induction requests generalizing step with
  | nil => rfl
  | cons request rest ih =>
    rw [emitted, List.map_append, ih, List.flatMap_cons, List.map_snd_zip (Nat.le_of_eq List.length_range'.symm)]

theorem lt_of_mem_emitted {requests : List Calculator.Request} {e : Nat × Response}
    (he : e ∈ emitted handler step requests) : step < e.1 := by
  induction requests generalizing step with
  | nil => cases he
  | cons request rest ih =>
    rcases List.mem_append.mp he with hfirst | hrest
    · have hrange := List.mem_range'_1.mp (List.of_mem_zip hfirst).1
      omega
    · have hlater := ih _ hrest
      omega

/-- Responses are emitted one after the other. -/
theorem pairwise_emitted (requests : List Calculator.Request) :
    (emitted handler step requests).Pairwise fun e e' => e.1 < e'.1 := by
  induction requests generalizing step with
  | nil => exact .nil
  | cons request rest ih =>
    have hfirst : ((List.range' (step + 1) (handler request).responses.length).zip
        (handler request).responses).Pairwise fun e e' => e.1 < e'.1 := by
      rw [← List.pairwise_map (f := Prod.fst) (R := (· < ·)), List.map_fst_zip (Nat.le_of_eq List.length_range')]
      exact List.pairwise_lt_range'
    refine List.pairwise_append.mpr ⟨hfirst, ih _, fun e he e' he' => ?_⟩
    have hrange := List.mem_range'_1.mp (List.of_mem_zip he).1
    have hlater := lt_of_mem_emitted handler _ he'
    omega

end

section
variable {handler : Calculator.Request → Emission} {stopped : Nat → Bool} {step : Nat}

/-- Of the responses to one request those are sent that are emitted before the loop is stopped. -/
theorem send_eq (stopped : Nat → Bool) (step : Nat) (responses : List Response) :
    send stopped step responses =
      (((List.range' step responses.length).zip responses).filter fun e => !stopped e.1).map fun e => .message e.2 := by
  induction responses generalizing step with
  | nil => rfl
  | cons response rest ih =>
    rw [send, ih, List.length_cons, List.range'_succ, List.zip_cons_cons]
    cases hstopped : stopped step <;> simp [hstopped]

theorem lastCrash?_cons (request : Calculator.Request) {served : List Calculator.Request} (hserved : served ≠ []) :
    lastCrash? handler (request :: served) = lastCrash? handler served := by
  rw [lastCrash?, List.getLast?_cons_of_ne_nil hserved, lastCrash?]

/-- A request that does not crash, before those that are taken up behind it. -/
theorem TakesUp.cons {request : Calculator.Request} {rest served : List Calculator.Request}
    (hrunning : stopped step = false) (hcrash : (handler request).crash? = none)
    (h : TakesUp handler (step + 1 + (handler request).responses.length) stopped rest served) :
    TakesUp handler step stopped (request :: rest) (request :: served) := by
  refine ⟨List.cons_prefix_cons.mpr ⟨rfl, h.isPrefix⟩, ?_, ?_, ?_⟩
  · rintro (_ | ⟨first, before⟩) r after heq
    · exact hrunning
    · obtain ⟨rfl, htail⟩ := List.cons.inj heq
      exact h.running before r after htail
  · rintro (_ | ⟨first, before⟩) r after heq hafter
    · obtain ⟨rfl, -⟩ := List.cons.inj heq
      exact hcrash
    · exact h.untroubled before r after (List.cons.inj heq).2 hafter
  · rcases h.ended with hall | hcrashed | hstopped
    · exact .inl (congrArg _ hall)
    · have hserved : served ≠ [] := by
        rintro rfl
        cases hcrashed
      exact .inr (.inl (by rwa [lastCrash?_cons request hserved]))
    · exact .inr (.inr hstopped)

/-- The loop sends, of the responses to the requests that it takes up, those that are emitted before it is stopped, and
reports the crash that ends it. -/
theorem exists_served (handler : Calculator.Request → Emission) (stopped : Nat → Bool) (step : Nat)
    (requests : List Calculator.Request) :
    ∃ served, TakesUp handler step stopped requests served ∧
      serve handler stopped step requests =
        ((emitted handler step served).filter fun e => !stopped e.1).map (fun e => .message e.2) ++
          (lastCrash? handler served).toList.map fun crash => .fault crash.message := by
  induction requests generalizing step with
  | nil => exact ⟨[], ⟨List.prefix_rfl, by simp, by simp, .inl rfl⟩, rfl⟩
  | cons request rest ih =>
    rw [serve]
    dsimp only
    cases hstopped : stopped step with
    | true => exact ⟨[], ⟨List.nil_prefix, by simp, by simp, .inr (.inr hstopped)⟩, rfl⟩
    | false =>
      rw [if_neg Bool.false_ne_true, send_eq]
      cases hcrash : (handler request).crash? with
      | some crash =>
        refine ⟨[request], ⟨⟨rest, rfl⟩, ?_, ?_, .inr (.inl ?_)⟩, ?_⟩
        · rintro (_ | ⟨first, before⟩) r after heq
          · exact hstopped
          · simp at heq
        · rintro (_ | ⟨first, before⟩) r after heq hafter
          · exact absurd (List.cons.inj heq).2.symm hafter
          · simp at heq
        · simp [lastCrash?, hcrash]
        · simp [emitted, lastCrash?, hcrash]
      | none =>
        obtain ⟨served, htakes, hsent⟩ := ih (step + 1 + (handler request).responses.length)
        refine ⟨request :: served, htakes.cons hstopped hcrash, ?_⟩
        have hlast : lastCrash? handler (request :: served) = lastCrash? handler served := by
          rcases eq_or_ne served [] with rfl | hserved
          · exact hcrash
          · exact lastCrash?_cons request hserved
        dsimp only
        rw [hsent, hlast, emitted, List.filter_append, List.map_append, List.append_assoc]

/-- What is emitted before the loop is stopped comes before what is emitted later. -/
theorem exists_sent {α : Type} (hstays : ∀ i j, i ≤ j → stopped i = true → stopped j = true) {events : List (Nat × α)}
    (horder : events.Pairwise fun e e' => e.1 < e'.1) :
    ∃ sent withheld, events = sent ++ withheld ∧ (∀ e ∈ sent, stopped e.1 = false) ∧
      ∀ e ∈ withheld, stopped e.1 = true := by
  induction events with
  | nil => exact ⟨[], [], rfl, by simp, by simp⟩
  | cons e rest ih =>
    obtain ⟨hlater, hrest⟩ := List.pairwise_cons.mp horder
    cases hstopped : stopped e.1 with
    | true =>
      refine ⟨[], e :: rest, rfl, by simp, fun e' he' => ?_⟩
      rcases List.mem_cons.mp he' with rfl | he'
      · exact hstopped
      · exact hstays e.1 e'.1 (Nat.le_of_lt (hlater e' he')) hstopped
    | false =>
      obtain ⟨sent, withheld, rfl, hsent, hwithheld⟩ := ih hrest
      refine ⟨e :: sent, withheld, rfl, fun e' he' => ?_, hwithheld⟩
      rcases List.mem_cons.mp he' with rfl | he'
      · exact hstopped
      · exact hsent e' he'

/-- Whatever the handlers emit, whichever of them crash, and whenever the loop is stopped: it takes up requests in their
order until there are no more, it sees that it is stopped, or one crashes. It sends the responses to these in their order,
up to the first that is emitted after it is stopped, and then, if the last request crashes, one report of that, which is
the last event. -/
theorem serve_until_ended (handler : Calculator.Request → Emission) {stopped : Nat → Bool}
    (hstays : ∀ i j, i ≤ j → stopped i = true → stopped j = true) (requests : List Calculator.Request) :
    ∃ served sent withheld, TakesUp handler 0 stopped requests served ∧ emitted handler 0 served = sent ++ withheld ∧
      (sent ++ withheld).map Prod.snd = served.flatMap (fun request => (handler request).responses) ∧
      (∀ e ∈ sent, stopped e.1 = false) ∧ (∀ e ∈ withheld, stopped e.1 = true) ∧
      serve handler stopped 0 requests = sent.map (fun e => .message e.2) ++
        (lastCrash? handler served).toList.map fun crash => .fault crash.message := by
  obtain ⟨served, htakes, hserve⟩ := exists_served handler stopped 0 requests
  obtain ⟨sent, withheld, hsplit, hsent, hwithheld⟩ := exists_sent hstays (pairwise_emitted handler 0 served)
  refine ⟨served, sent, withheld, htakes, hsplit, hsplit ▸ map_emitted handler 0 served, hsent, hwithheld, ?_⟩
  have hkept : (sent.filter fun e => !stopped e.1) = sent :=
    List.filter_eq_self.mpr fun e he => by rw [hsent e he, Bool.not_false]
  have hdropped : (withheld.filter fun e => !stopped e.1) = [] :=
    List.filter_eq_nil_iff.mpr fun e he => by rw [hwithheld e he, Bool.not_true]; exact Bool.false_ne_true
  rw [hserve, hsplit, List.filter_append, hkept, hdropped, List.append_nil]

/-- The second of three requests crashes behind its two responses, and the loop is stopped between these: the second
response is not sent, the crash is reported, and the third request is not taken up. -/
theorem serve_stopped_before_crash :
    let handler : Calculator.Request → Emission := fun r =>
      ⟨[⟨r.id, .progress, .null⟩, ⟨r.id, .result, .null⟩], if r.id = "b" then some ⟨some "lost"⟩ else none⟩
    let stopped : Nat → Bool := fun step => decide (5 ≤ step)
    let requests : List Calculator.Request := [⟨"a", .batch, .null⟩, ⟨"b", .matrix, .null⟩, ⟨"c", .graph, .null⟩]
    (∀ i j, i ≤ j → stopped i = true → stopped j = true) ∧
      serve handler stopped 0 requests = [.message ⟨"a", .progress, .null⟩, .message ⟨"a", .result, .null⟩,
        .message ⟨"b", .progress, .null⟩, .fault "lost"] ∧
      ∃ served sent withheld, TakesUp handler 0 stopped requests served ∧
        emitted handler 0 served = sent ++ withheld ∧ (∀ e ∈ sent, stopped e.1 = false) ∧
          (∀ e ∈ withheld, stopped e.1 = true) ∧ serve handler stopped 0 requests =
            sent.map (fun e => .message e.2) ++
              (lastCrash? handler served).toList.map fun crash => .fault crash.message := by
  intro handler stopped requests
  have hstays : ∀ i j, i ≤ j → stopped i = true → stopped j = true := fun i j hle hi =>
    decide_eq_true (Nat.le_trans (of_decide_eq_true hi) hle)
  obtain ⟨served, sent, withheld, htakes, hsplit, -, hsent, hwithheld, hserve⟩ :=
    serve_until_ended handler hstays requests
  exact ⟨hstays, rfl, served, sent, withheld, htakes, hsplit, hsent, hwithheld, hserve⟩

end

end Calculator.Worker

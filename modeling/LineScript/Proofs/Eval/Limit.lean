import LineScript.Proofs.Eval.Refusal

/-!
# LineScript.Proofs.Eval.Limit

Printing into a buffer with a limit.  Its bytes are those of a buffer without one, as
long as these fit.  The text that does not fit is cut at the limit, and the run ends
there, whatever would have come of it later.

* `Buffer.follows_below` — the two buffers, text by text;
* `evaluate_limited` — the two runs of a program.
-/

namespace ByteArray

/-- What is put at the end does not change the bytes in front. -/
theorem extract_append_of_le {a b : ByteArray} {n : Nat} (h : n ≤ a.size) :
    (a ++ b).extract 0 n = a.extract 0 n := by
  have hnone : b.extract (0 - a.size) (n - a.size) = ByteArray.empty := by
    rw [extract_eq_empty_iff]
    omega
  rw [extract_append, hnone, append_empty]

end ByteArray

namespace LineScript

namespace Buffer

/-- The second buffer has a limit and holds all the bytes of the first. -/
def Below (limit : Nat) (whole cut : Buffer) : Prop :=
  ∃ bytes, bytes.size ≤ limit ∧ whole = ⟨bytes, none⟩ ∧ cut = ⟨bytes, some limit⟩

/-- A text that fits is added to both buffers. -/
theorem follows_below (limit : Nat) : Sink.Follows (Below limit) := by
  rintro text _ _ ⟨bytes, -, rfl, rfl⟩
  refine ⟨_, write_unlimited text bytes, fun cut hcut => ?_⟩
  rw [show Sink.write text _ = write text _ from rfl, write_limited] at hcut
  split at hcut
  · next hfits =>
    cases hcut
    exact ⟨_, hfits, rfl, rfl⟩
  · contradiction

/-- A text is refused exactly if it crosses the limit, and is then cut there. -/
theorem write_limited_error {text reason : String} {bytes : ByteArray} {limit : Nat}
    {after : Buffer} (h : Sink.write text (⟨bytes, some limit⟩ : Buffer) = .error reason after) :
    limit < (bytes ++ text.toUTF8).size ∧ reason = fullReason ∧
      after = ⟨(bytes ++ text.toUTF8).extract 0 limit, some limit⟩ := by
  rw [show Sink.write text _ = write text _ from rfl, write_limited] at h
  split at h
  · contradiction
  · next hfits =>
    cases h
    exact ⟨Nat.lt_of_not_le hfits, rfl, rfl⟩

/-- A buffer without a limit only grows. -/
theorem exists_of_prints {bytes : ByteArray} {after : Buffer} (h : Prints ⟨bytes, none⟩ after) :
    ∃ more, after = ⟨bytes ++ more, none⟩ := by
  obtain ⟨texts, rfl⟩ := h
  induction texts generalizing bytes with
  | nil => exact ⟨.empty, by simp⟩
  | cons text texts ih =>
      obtain ⟨more, hmore⟩ := @ih (bytes ++ text.toUTF8)
      exact ⟨text.toUTF8 ++ more, by rw [← ByteArray.append_assoc]; exact hmore⟩

end Buffer

/-- **A limited buffer**: if all that a program prints fits, it runs with the limit as it
does without.  Otherwise the run stops at the node whose text crosses the limit.  It has
then printed all bytes up to the limit, and it has added the records of the statements
before the one that holds the node. -/
theorem evaluate_limited (p : Program) (history : History) (limit : Nat) :
    let whole := Transcript.evaluate p ⟨history, ({} : Buffer)⟩
    let cut := Transcript.evaluate p ⟨history, ({ limit := some limit } : Buffer)⟩
    let total := whole.state.out.bytes
    (total.size ≤ limit →
      cut = whole.mapState fun t => { t with out := { t.out with limit := some limit } }) ∧
    (limit < total.size → ∃ before e after records between env line value printed sofar,
      p = before ++ e :: after ∧
      Transcript.evaluate before ⟨history, ({} : Buffer)⟩ =
        .ok () ⟨history ++ records, between⟩ ∧
      Expr.print line value ∈ e.nodes ∧
      Reaches (History.value? (history ++ records)) e between
        ⟨env, .print line value, ⟨sofar, none⟩⟩ ∧
      Evaluates env value (.ok printed) ∧
      sofar.size ≤ limit ∧ limit < (sofar ++ (printed.text ++ "\n").toUTF8).size ∧
      cut = .error ⟨.output Buffer.fullReason, line⟩
        ⟨history ++ records, ⟨total.extract 0 limit, some limit⟩⟩) := by
  intro whole cut total
  have hstart : Buffer.Below limit {} { limit := some limit } := ⟨.empty, by simp, rfl, rfl⟩
  have hruns : FollowedRun (Buffer.Below limit) p history {} whole cut :=
    followedRun_evaluate (Buffer.follows_below limit) p history hstart
  clear_value whole cut
  cases hruns with
  | ok h =>
      obtain ⟨bytes, hfits, rfl, rfl⟩ := h
      exact ⟨fun _ => rfl, fun hcrosses => absurd hfits (Nat.not_le_of_lt hcrosses)⟩
  | error fault h =>
      obtain ⟨bytes, hfits, rfl, rfl⟩ := h
      exact ⟨fun _ => rfl, fun hcrosses => absurd hfits (Nat.not_le_of_lt hcrosses)⟩
  | refused hp hbefore hm h hprints =>
      cases h with
      | @print env line value printed _ _ _ _ _ hvalue hbelow htaken hrefused =>
          obtain ⟨sofar, hsofar, rfl, rfl⟩ := hbelow
          obtain ⟨hcrosses, rfl, rfl⟩ := Buffer.write_limited_error hrefused
          cases htaken
          obtain ⟨more, hmore⟩ := Buffer.exists_of_prints hprints
          have htotal : total = sofar ++ (printed.text ++ "\n").toUTF8 ++ more :=
            congrArg Buffer.bytes hmore
          have hcut : total.extract 0 limit =
              (sofar ++ (printed.text ++ "\n").toUTF8).extract 0 limit := by
            rw [htotal, ByteArray.extract_append_of_le (Nat.le_of_lt hcrosses)]
          have hlong : limit < total.size := by
            rw [htotal, ByteArray.size_append]
            omega
          refine ⟨fun hfits => absurd hfits (Nat.not_le_of_lt hlong), fun _ => ?_⟩
          exact ⟨_, _, _, _, _, env, line, value, printed, sofar, hp, hbefore, hm.mem_nodes, hm,
            hvalue, hsofar, hcrosses, by rw [hcut]⟩

/-- A loop that prints in a branch, and a division by zero after it. -/
def tens : Program :=
  [.assign 1 "x" (.literal 1 (.int 10)),
    .loop 2 none (.binary 2 .rangeInclusive (.literal 2 (.int 1)) (.literal 2 (.int 3)))
      [.branch 3 (.binary 3 .less (.var 3 loopName) (.literal 3 (.int 9)))
        [.print 4 (.binary 4 .mul (.var 4 "x") (.var 4 loopName))] none],
    .print 7 (.binary 7 .div (.var 7 "x") (.literal 7 (.int 0)))]

/-- With room for four bytes the loop stops in its second turn, in the middle of a number;
with room for nine the run gets to the division. -/
theorem evaluate_limited_tens :
    (∃ before e after env value printed sofar, tens = before ++ e :: after ∧
      Expr.print 4 value ∈ e.nodes ∧ Evaluates env value (.ok printed) ∧
      sofar.size ≤ 4 ∧ 4 < (sofar ++ (printed.text ++ "\n").toUTF8).size) ∧
    Transcript.evaluate tens ⟨[], ({ limit := some 4 } : Buffer)⟩ =
      .error ⟨.output Buffer.fullReason, 4⟩
        ⟨[.assign 1 "x" (.int 10)], ⟨"10\n2".toUTF8, some 4⟩⟩ ∧
    Transcript.evaluate tens ⟨[], ({ limit := some 9 } : Buffer)⟩ =
      .error ⟨.divisionByZero, 7⟩
        ⟨[.assign 1 "x" (.int 10), .loop 2 3], ⟨"10\n20\n30\n".toUTF8, some 9⟩⟩ := by
  have hwhole : Transcript.evaluate tens ⟨[], ({} : Buffer)⟩ = .error ⟨.divisionByZero, 7⟩
      ⟨[.assign 1 "x" (.int 10), .loop 2 3], ⟨"10\n20\n30\n".toUTF8, none⟩⟩ := by cbv
  have hfour : Transcript.evaluate tens ⟨[], ({ limit := some 4 } : Buffer)⟩ =
      .error ⟨.output Buffer.fullReason, 4⟩
        ⟨[.assign 1 "x" (.int 10)], ⟨"10\n2".toUTF8, some 4⟩⟩ := by cbv
  obtain ⟨before, e, after, _, _, env, line, value, printed, sofar, hp, -, hmem, -, hvalue, hsofar,
    hcrosses, hcut⟩ := (evaluate_limited tens [] 4).2 (by rw [hwhole]; decide)
  have hnine := (evaluate_limited tens [] 9).1 (by rw [hwhole]; decide)
  rw [hfour] at hcut
  obtain rfl : 4 = line := congrArg Fault.line (EStateM.Result.error.inj hcut).1
  rw [hwhole] at hnine
  exact ⟨⟨before, e, after, env, value, printed, sofar, hp, hmem, hvalue, hsofar, hcrosses⟩, hfour,
    hnine⟩

end LineScript

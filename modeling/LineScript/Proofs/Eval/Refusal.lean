import LineScript.Proofs.Eval.Lexical
import LineScript.Proofs.Expr.Nodes

/-!
# LineScript.Proofs.Eval.Refusal

What a refused text changes.  The same program runs on two sinks, of which the first
takes everything and the second what it can.  Both runs are the same up to the first
text that the second sink refuses.  There its run ends, at the line that prints the
text and with the records of the statements before.

* `prints_of_executes` — a run changes its sink only by printing;
* `followed_of_executes` — a statement on two sinks;
* `followedRun_evaluate` — a program on two sinks.
-/

namespace EStateM

theorem Result.state_map {ε σ α β : Type} (f : α → β) (r : Result ε σ α) :
    (r.map f).state = r.state := by
  cases r <;> rfl

end EStateM

namespace LineScript

/-! ## what a run prints -/

section

variable {σ : Type} [Sink σ]

theorem Sink.take_of_write_ok {text : String} {out after : σ}
    (h : Sink.write text out = .ok () after) : Sink.take out text = after := by
  rw [Sink.take, h]

theorem Sink.take_of_write_error {text reason : String} {out after : σ}
    (h : Sink.write text out = .error reason after) : Sink.take out text = after := by
  rw [Sink.take, h]

/-- The second state of a sink comes from the first by printing. -/
def Prints (out after : σ) : Prop := ∃ texts, after = Sink.takeAll out texts

namespace Prints

theorem refl (out : σ) : Prints out out := ⟨[], rfl⟩

theorem trans {out between after : σ} (h : Prints out between) (h' : Prints between after) :
    Prints out after := by
  obtain ⟨xs, rfl⟩ := h
  obtain ⟨ys, rfl⟩ := h'
  exact ⟨xs ++ ys, (Sink.takeAll_append out xs ys).symm⟩

theorem take (out : σ) (text : String) : Prints out (Sink.take out text) := ⟨[text], rfl⟩

end Prints

mutual

/-- A statement changes its sink only by printing. -/
theorem prints_of_executes {env : Env} {e : Expr} {out : σ} {answer : Answer σ Record} :
    Executes env e out answer → Prints out answer.state
  | .fault _ => .refl out
  | .operand _ _ => .refl out
  | .assign _ _ _ => .refl out
  | .print _ _ hwrite => by
      rw [← Sink.take_of_write_ok hwrite]
      exact .take out _
  | .refused _ _ hwrite => by
      rw [← Sink.take_of_write_error hwrite]
      exact .take out _
  | .branch _ _ hbody => by
      rw [EStateM.Result.state_map]
      exact prints_of_executesAll hbody
  | .branchFault _ _ _ _ _ => .refl out
  | .loop _ _ hbody => by
      rw [EStateM.Result.state_map]
      exact prints_of_iterates hbody
  | .loopFault _ _ _ _ _ => .refl out

theorem prints_of_executesAll {env : Env} {es : List Expr} {out : σ} {records : List Record}
    {answer : Answer σ Unit} : ExecutesAll env es out records answer → Prints out answer.state
  | .nil _ _ => .refl out
  | .stop _ h => prints_of_executes h
  | .cons h hrest => (prints_of_executes h).trans (prints_of_executesAll hrest)

theorem prints_of_iterates {env : Env} {name : Option String} {body : List Expr}
    {items : List Number} {out : σ} {answer : Answer σ Unit} :
    Iterates env name body items out answer → Prints out answer.state
  | .nil _ _ _ _ => .refl out
  | .stop _ h => prints_of_executesAll h
  | .cons h hrest => (prints_of_executesAll h).trans (prints_of_iterates hrest)

end

/-- A program changes its sink only by printing. -/
theorem prints_of_evaluate (p : Program) (history : History) (out : σ) :
    Prints out (Transcript.evaluate p ⟨history, out⟩).state.out := by
  obtain ⟨records, result, h⟩ := exists_executesAll history p out
  rw [evaluate_of_executesAll history h]
  have hprints := prints_of_executesAll h
  cases result <;> exact hprints

/-- After its first statement, a program goes on printing. -/
theorem prints_evaluate_cons (e : Expr) (p : Program) (history : History) (out : σ) :
    Prints (Eval.answer (Eval.statement history e) ⟨[], out⟩).state
      (Transcript.evaluate (e :: p) ⟨history, out⟩).state.out := by
  have hstep := Transcript.step_eq_answer history e out
  rw [Transcript.evaluate]
  cases hanswer : Eval.answer (Eval.statement history e) ⟨[], out⟩ with
  | ok record between =>
      rw [hanswer] at hstep
      rw [EStateM.bind_of_ok hstep]
      exact prints_of_evaluate p _ between
  | error fault after =>
      rw [hanswer] at hstep
      rw [EStateM.bind_of_error hstep]
      exact .refl after

end

/-! ## the moments of a run -/

/-- A moment of a run: a statement is about to run, names mean what `env` says, and the
sink is as given. -/
structure Moment (σ : Type) where
  env : Env
  node : Expr
  out : σ

section

variable {σ : Type} [Sink σ]

mutual

/-- The run of a statement comes to the given moment. -/
inductive Reaches : Env → Expr → σ → Moment σ → Prop where
  | here (env : Env) (e : Expr) (out : σ) : Reaches env e out ⟨env, e, out⟩
  | branch {env : Env} (line : Nat) {condition : Expr} {body : List Expr}
      {otherwise : Option (List Expr)} {out : σ} {taken : Bool} {m : Moment σ}
      (h : Evaluates env condition (.ok (.bool taken)))
      (hbody : ReachesAll env (if taken then body else otherwise.getD []) out m) :
      Reaches env (.branch line condition body otherwise) out m
  | loop {env : Env} (line : Nat) {name : Option String} {range : Expr} {body : List Expr}
      {out : σ} {items : List Number} {m : Moment σ}
      (h : Evaluates env range (.ok (.array items)))
      (hbody : ReachesTurn env name body items out m) :
      Reaches env (.loop line name range body) out m

/-- The run of statements that follow each other comes to the given moment. -/
inductive ReachesAll : Env → List Expr → σ → Moment σ → Prop where
  | first {env : Env} {e : Expr} (es : List Expr) {out : σ} {m : Moment σ}
      (h : Reaches env e out m) : ReachesAll env (e :: es) out m
  | later {env : Env} {e : Expr} {es : List Expr} {out between : σ} {record : Record}
      {m : Moment σ} (h : Executes env e out (.ok record between))
      (hrest : ReachesAll (env.after record) es between m) : ReachesAll env (e :: es) out m

/-- The run of a loop comes to the given moment, in one of its turns. -/
inductive ReachesTurn : Env → Option String → List Expr → List Number → σ → Moment σ → Prop where
  | first {env : Env} {name : Option String} {body : List Expr} {item : Number}
      (items : List Number) {out : σ} {m : Moment σ}
      (h : ReachesAll (env.atElement name item) body out m) :
      ReachesTurn env name body (item :: items) out m
  | later {env : Env} {name : Option String} {body : List Expr} {item : Number}
      {items : List Number} {out between : σ} {records : List Record} {m : Moment σ}
      (h : ExecutesAll (env.atElement name item) body out records (.ok () between))
      (hrest : ReachesTurn env name body items between m) :
      ReachesTurn env name body (item :: items) out m

end

mutual

/-- A run comes only to nodes of its statement. -/
theorem Reaches.mem_nodes {env : Env} {e : Expr} {out : σ} {m : Moment σ} :
    Reaches env e out m → m.node ∈ e.nodes
  | .here _ e _ => e.self_mem_nodes
  | @Reaches.branch _ _ _ _ _ _ otherwise _ taken _ _ hbody => by
      have hmem := hbody.mem_nodesAll
      cases taken with
      | true => exact Expr.nodesAll_subset_of_mem_blocks (by simp [Expr.blocks]) hmem
      | false =>
          cases otherwise with
          | none => simp [Expr.nodesAll] at hmem
          | some other => exact Expr.nodesAll_subset_of_mem_blocks (by simp [Expr.blocks]) hmem
  | .loop _ _ hbody =>
      Expr.nodesAll_subset_of_mem_blocks (by simp [Expr.blocks]) hbody.mem_nodesAll

theorem ReachesAll.mem_nodesAll {env : Env} {es : List Expr} {out : σ} {m : Moment σ} :
    ReachesAll env es out m → m.node ∈ Expr.nodesAll es
  | .first _ h => List.mem_append_left _ h.mem_nodes
  | .later _ hrest => List.mem_append_right _ hrest.mem_nodesAll

theorem ReachesTurn.mem_nodesAll {env : Env} {name : Option String} {body : List Expr}
    {items : List Number} {out : σ} {m : Moment σ} :
    ReachesTurn env name body items out m → m.node ∈ Expr.nodesAll body
  | .first _ h => h.mem_nodesAll
  | .later _ hrest => hrest.mem_nodesAll

end

end

/-! ## two sinks -/

section

variable {σ τ : Type} [Sink σ] [Sink τ] {R : τ → σ → Prop} {α β : Type}

/-- The second sink follows the first, which takes every text: what both take leaves them
related. -/
def Sink.Follows (R : τ → σ → Prop) : Prop :=
  ∀ (text : String) (t : τ) (s : σ), R t s → ∃ t', Sink.write text t = .ok () t' ∧
    ∀ s', Sink.write text s = .ok () s' → R t' s'

/-- At a moment of the first run a value is printed.  The first sink takes it, and the
second refuses it, with the given fault and the given state after it. -/
inductive Refused (R : τ → σ → Prop) : Moment τ → τ → Fault EvalCause → σ → Prop where
  | print {env : Env} {line : Nat} {e : Expr} {value : Value} {t t' : τ} {s s' : σ}
      {reason : String} (h : Evaluates env e (.ok value)) (hrelated : R t s)
      (htaken : Sink.write (value.text ++ "\n") t = .ok () t')
      (hrefused : Sink.write (value.text ++ "\n") s = .error reason s') :
      Refused R ⟨env, .print line e, t⟩ t' ⟨.output reason, line⟩ s'

/-- What two runs leave: the same, or the second run was stopped by a refusal, at a moment
that the first run came to. -/
inductive Followed (R : τ → σ → Prop) (reached : Moment τ → Prop) :
    Answer τ α → Answer σ α → Prop where
  | ok (a : α) {t : τ} {s : σ} (h : R t s) : Followed R reached (.ok a t) (.ok a s)
  | error (fault : Fault EvalCause) {t : τ} {s : σ} (h : R t s) :
      Followed R reached (.error fault t) (.error fault s)
  | refused {answer : Answer τ α} {m : Moment τ} {t : τ} {fault : Fault EvalCause} {s : σ}
      (hm : reached m) (h : Refused R m t fault s) (hprints : Prints t answer.state) :
      Followed R reached answer (.error fault s)

namespace Followed

variable {reached reached' : Moment τ → Prop} {first : Answer τ α} {second : Answer σ α}

theorem mono (h : Followed R reached first second) (hsub : ∀ m, reached m → reached' m) :
    Followed R reached' first second := by
  cases h with
  | ok a h => exact .ok a h
  | error fault h => exact .error fault h
  | refused hm h hprints => exact .refused (hsub _ hm) h hprints

theorem map (h : Followed R reached first second) (f : α → β) :
    Followed R reached (first.map f) (second.map f) := by
  cases h with
  | ok a h => exact .ok (f a) h
  | error fault h => exact .error fault h
  | refused hm h hprints =>
      refine .refused hm h ?_
      rwa [EStateM.Result.state_map]

end Followed

mutual

/-- **A statement on two sinks** leaves the same on both, unless the second refuses a
text. -/
theorem followed_of_executes (hR : Sink.Follows R) {env : Env} {e : Expr} {t : τ}
    {answer : Answer τ Record} : Executes env e t answer → ∀ s, R t s →
      ∃ answer', Executes env e s answer' ∧ Followed R (Reaches env e t) answer answer'
  | .fault h, s, hs => ⟨_, .fault h, .error _ hs⟩
  | .operand he h, s, hs => ⟨_, .operand he h, .ok _ hs⟩
  | .assign line name h, s, hs => ⟨_, .assign line name h, .ok _ hs⟩
  | @Executes.print _ _ _ line _ _ after value h hwrite, s, hs => by
      obtain ⟨t', htaken, hfollows⟩ := hR (value.text ++ "\n") t s hs
      obtain rfl : after = t' := by
        rw [hwrite] at htaken
        cases htaken
        rfl
      cases hsecond : Sink.write (value.text ++ "\n") s with
      | ok _ s' => exact ⟨_, .print line h hsecond, .ok _ (hfollows s' hsecond)⟩
      | error reason s' =>
          exact ⟨_, .refused line h hsecond,
            .refused (.here _ _ _) (.print h hs hwrite hsecond) (.refl _)⟩
  | @Executes.refused _ _ _ line _ _ _ value _ h hwrite, s, hs => by
      obtain ⟨t', htaken, -⟩ := hR (value.text ++ "\n") t s hs
      rw [hwrite] at htaken
      contradiction
  | .branch line h hbody, s, hs => by
      obtain ⟨_, _, hbody', hfollowed⟩ := followed_of_executesAll hR hbody s hs
      exact ⟨_, .branch line h hbody', (hfollowed.mono fun _ => .branch line h).map _⟩
  | .branchFault line body otherwise h hcause, s, hs =>
      ⟨_, .branchFault line body otherwise h hcause, .error _ hs⟩
  | .loop line h hbody, s, hs => by
      obtain ⟨_, hbody', hfollowed⟩ := followed_of_iterates hR hbody s hs
      exact ⟨_, .loop line h hbody', (hfollowed.mono fun _ => .loop line h).map _⟩
  | .loopFault line name body h hcause, s, hs =>
      ⟨_, .loopFault line name body h hcause, .error _ hs⟩

theorem followed_of_executesAll (hR : Sink.Follows R) {env : Env} {es : List Expr} {t : τ}
    {records : List Record} {answer : Answer τ Unit} :
    ExecutesAll env es t records answer → ∀ s, R t s →
      ∃ records' answer', ExecutesAll env es s records' answer' ∧
        Followed R (ReachesAll env es t) answer answer'
  | .nil env _, s, hs => ⟨_, _, .nil env s, .ok _ hs⟩
  | .stop es h, s, hs => by
      obtain ⟨_, h', hfollowed⟩ := followed_of_executes hR h s hs
      cases hfollowed with
      | error _ hs' => exact ⟨_, _, .stop es h', .error _ hs'⟩
      | refused hm hrefused hprints =>
          exact ⟨_, _, .stop es h', .refused (.first es hm) hrefused hprints⟩
  | @ExecutesAll.cons _ _ _ _ es _ _ _ _ _ h hrest, s, hs => by
      obtain ⟨_, h', hfollowed⟩ := followed_of_executes hR h s hs
      cases hfollowed with
      | ok record hs' =>
          obtain ⟨_, _, hrest', hfollowed'⟩ := followed_of_executesAll hR hrest _ hs'
          exact ⟨_, _, .cons h' hrest', hfollowed'.mono fun _ => .later h⟩
      | refused hm hrefused hprints =>
          exact ⟨_, _, .stop es h', .refused (.first es hm) hrefused
            (hprints.trans (prints_of_executesAll hrest))⟩

theorem followed_of_iterates (hR : Sink.Follows R) {env : Env} {name : Option String}
    {body : List Expr} {items : List Number} {t : τ} {answer : Answer τ Unit} :
    Iterates env name body items t answer → ∀ s, R t s →
      ∃ answer', Iterates env name body items s answer' ∧
        Followed R (ReachesTurn env name body items t) answer answer'
  | .nil env name body _, s, hs => ⟨_, .nil env name body s, .ok _ hs⟩
  | .stop items h, s, hs => by
      obtain ⟨_, _, h', hfollowed⟩ := followed_of_executesAll hR h s hs
      cases hfollowed with
      | error _ hs' => exact ⟨_, .stop items h', .error _ hs'⟩
      | refused hm hrefused hprints =>
          exact ⟨_, .stop items h', .refused (.first items hm) hrefused hprints⟩
  | @Iterates.cons _ _ _ _ _ _ items _ _ _ _ h hrest, s, hs => by
      obtain ⟨_, _, h', hfollowed⟩ := followed_of_executesAll hR h s hs
      cases hfollowed with
      | ok _ hs' =>
          obtain ⟨_, hrest', hfollowed'⟩ := followed_of_iterates hR hrest _ hs'
          exact ⟨_, .cons h' hrest', hfollowed'.mono fun _ => .later h⟩
      | refused hm hrefused hprints =>
          exact ⟨_, .stop items h', .refused (.first items hm) hrefused
            (hprints.trans (prints_of_iterates hrest))⟩

end

/-! ## programs -/

/-- What two runs of a program leave: the same, or the second run was stopped by a
refusal.  That is at a moment of a statement before which both have left the same
records. -/
inductive FollowedRun (R : τ → σ → Prop) (p : Program) (history : History) (t : τ) :
    EStateM.Result (Fault EvalCause) (Transcript τ) Unit →
      EStateM.Result (Fault EvalCause) (Transcript σ) Unit → Prop where
  | ok {final : History} {t' : τ} {s' : σ} (h : R t' s') :
      FollowedRun R p history t (.ok () ⟨final, t'⟩) (.ok () ⟨final, s'⟩)
  | error (fault : Fault EvalCause) {final : History} {t' : τ} {s' : σ} (h : R t' s') :
      FollowedRun R p history t (.error fault ⟨final, t'⟩) (.error fault ⟨final, s'⟩)
  | refused {result : EStateM.Result (Fault EvalCause) (Transcript τ) Unit}
      {before after : Program} {e : Expr} {records : History} {between t' : τ} {m : Moment τ}
      {fault : Fault EvalCause} {s' : σ} (hp : p = before ++ e :: after)
      (hbefore : Transcript.evaluate before ⟨history, t⟩ =
        .ok () ⟨history ++ records, between⟩)
      (hm : Reaches (History.value? (history ++ records)) e between m)
      (h : Refused R m t' fault s') (hprints : Prints t' result.state.out) :
      FollowedRun R p history t result (.error fault ⟨history ++ records, s'⟩)

/-- A statement in front of a program. -/
theorem FollowedRun.cons {e : Expr} {p : Program} {history : History} {record : Record}
    {t between : τ} {first : EStateM.Result (Fault EvalCause) (Transcript τ) Unit}
    {second : EStateM.Result (Fault EvalCause) (Transcript σ) Unit}
    (hstep : Transcript.step e ⟨history, t⟩ = .ok () ⟨history ++ [record], between⟩)
    (h : FollowedRun R p (history ++ [record]) between first second) :
    FollowedRun R (e :: p) history t first second := by
  cases h with
  | ok h => exact .ok h
  | error fault h => exact .error fault h
  | @refused _ before after e' records _ _ _ _ _ hp hbefore hm h hprints =>
      have hsplit : e :: p = (e :: before) ++ e' :: after := by rw [hp]; rfl
      have hrecords : history ++ [record] ++ records = history ++ record :: records := by simp
      rw [hrecords] at hbefore hm ⊢
      refine .refused hsplit ?_ hm h hprints
      rw [Transcript.evaluate, EStateM.bind_of_ok hstep, hbefore]

/-- **A program on two sinks** leaves the same on both, unless the second refuses a
text. -/
theorem followedRun_evaluate (hR : Sink.Follows R) (p : Program) (history : History) {t : τ}
    {s : σ} (hs : R t s) :
    FollowedRun R p history t (Transcript.evaluate p ⟨history, t⟩)
      (Transcript.evaluate p ⟨history, s⟩) := by
  induction p generalizing history t s with
  | nil => exact .ok hs
  | cons e p ih =>
      have hexecutes := executes_statement history e [] t
      obtain ⟨answer, hexecutes', hfollowed⟩ := followed_of_executes hR hexecutes s hs
      have hfirst := Transcript.step_eq_answer history e t
      have hsecond := Transcript.step_eq_answer history e s
      have hgoes := prints_evaluate_cons e p history t
      rw [(executes_iff history).mpr hexecutes'] at hsecond
      generalize Eval.answer (Eval.statement history e) ⟨[], t⟩ = first at hfollowed hfirst hgoes
      cases hfollowed with
      | ok record hs' =>
          rw [Transcript.evaluate, EStateM.bind_of_ok hfirst, Transcript.evaluate,
            EStateM.bind_of_ok hsecond]
          exact (ih _ hs').cons hfirst
      | error fault hs' =>
          rw [Transcript.evaluate, EStateM.bind_of_error hfirst, Transcript.evaluate,
            EStateM.bind_of_error hsecond]
          exact .error fault hs'
      | @refused _ _ _ fault s' hm hrefused hprints =>
          have hnone : Transcript.evaluate [] ⟨history, t⟩ = .ok () ⟨history ++ [], t⟩ := by
            rw [List.append_nil]
            rfl
          have hstop : Transcript.evaluate (e :: p) ⟨history, s⟩ =
              .error fault ⟨history ++ [], s'⟩ := by
            rw [Transcript.evaluate, EStateM.bind_of_error hsecond, List.append_nil]
          rw [hstop]
          rw [Scope.value?_nil, ← List.append_nil history] at hm
          exact .refused rfl hnone hm hrefused (hprints.trans hgoes)

/-! ## any sink -/

theorem Sink.follows_log : Sink.Follows fun (_ : Log) (_ : σ) => True :=
  fun _ _ _ _ => ⟨_, rfl, fun _ _ => trivial⟩

/-- On every sink a program follows the run whose sink takes everything. -/
theorem followedRun_log (p : Program) (history : History) (out : σ) :
    FollowedRun (fun (_ : Log) (_ : σ) => True) p history {}
      (Transcript.evaluate p ⟨history, {}⟩) (Transcript.evaluate p ⟨history, out⟩) :=
  followedRun_evaluate Sink.follows_log p history trivial

/-- A program that runs to its end leaves the same records on every sink. -/
theorem evaluate_log_of_ok {p : Program} {history : History} {out : σ} {after : Transcript σ}
    (h : Transcript.evaluate p ⟨history, out⟩ = .ok () after) :
    ∃ log, Transcript.evaluate p ⟨history, ({} : Log)⟩ = .ok () ⟨after.history, log⟩ := by
  have hruns := followedRun_log p history out
  rw [h] at hruns
  generalize hlog : Transcript.evaluate p ⟨history, ({} : Log)⟩ = first at hruns
  cases hruns with
  | @ok _ log _ _ => exact ⟨log, rfl⟩

end

end LineScript

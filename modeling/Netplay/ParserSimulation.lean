import Netplay.ParserItems
import Netplay.StateRelation

/-!
# The parser does not depend on how its tokens are stored

If two token sources simulate each other the parser has the same outcome over
both.
-/

namespace Netplay.ParserSimulation

open Text Lexer QueryParser StateRelation

variable {σ τ : Type}

structure Simulates (A : TokenSource σ) (B : TokenSource τ) (R : σ → τ → Prop) : Prop where
  next : ∀ s t, R s t → Related R (A.nextToken s) (B.nextToken t)
  peek : ∀ s t, R s t → Related R (A.peekToken s) (B.peekToken t)

variable {A : TokenSource σ} {B : TokenSource τ} {R : σ → τ → Prop}

/-- One call deeper: every parser function keeps the relation. -/
theorem step_related (h : Simulates A B R) (n : Nat)
    (hf : ∀ s t, R s t → Related R (factor A n s) (factor B n t))
    (ht : ∀ s t, R s t → Related R (term A n s) (term B n t))
    (htl : ∀ s t, R s t → Related R (termLoop A n s) (termLoop B n t))
    (he : ∀ s t, R s t → Related R (exp A n s) (exp B n t))
    (hel : ∀ s t, R s t → Related R (expLoop A n s) (expLoop B n t)) (s : σ) (t : τ)
    (hst : R s t) :
    Related R (factor A (n + 1) s) (factor B (n + 1) t) ∧
      Related R (term A (n + 1) s) (term B (n + 1) t) ∧
      Related R (termLoop A (n + 1) s) (termLoop B (n + 1) t) ∧
      Related R (exp A (n + 1) s) (exp B (n + 1) t) ∧
      Related R (expLoop A (n + 1) s) (expLoop B (n + 1) t) := by
  refine ⟨?_, ?_, ?_, ?_, ?_⟩
  · rw [factor, factor]
    refine related_bind (h.next s t hst) fun tok s t hst => related_ite (fun _ => ?_) fun _ =>
      related_ite (fun _ => ?_) fun _ => related_ite (fun _ => ?_) fun _ => related_error _
    · exact related_bind (hf s t hst) fun e s t hst =>
        related_bind_pure fun d => related_ok d hst
    · exact related_bind (he s t hst) fun e s t hst => related_bind (h.next s t hst)
        fun right s t hst => related_ite (fun _ => related_error _) fun _ => related_ok e hst
    · exact related_bind (h.next s t hst) fun op s t hst =>
        related_ite (fun _ => related_error _) fun _ => related_bind (h.next s t hst)
          fun v s t hst => related_ite (fun _ => related_error _) fun _ => related_ok _ hst
  · rw [term, term]
    exact related_bind (hf s t hst) fun f s t hst => related_bind (h.peek s t hst)
      fun tok s t hst => related_ite (fun _ => related_ok f hst) fun _ =>
        related_bind (htl s t hst) fun fs s t hst => related_ok _ hst
  · rw [termLoop, termLoop]
    exact related_bind (h.peek s t hst) fun tok s t hst => related_ite
      (fun _ => related_bind (h.next s t hst) fun _ s t hst => related_bind (hf s t hst)
        fun f s t hst => related_bind (htl s t hst) fun fs s t hst => related_ok _ hst)
      fun _ => related_ok _ hst
  · rw [exp, exp]
    exact related_bind (ht s t hst) fun f s t hst => related_bind (h.peek s t hst)
      fun tok s t hst => related_ite (fun _ => related_ok f hst) fun _ =>
        related_bind (hel s t hst) fun fs s t hst => related_ok _ hst
  · rw [expLoop, expLoop]
    exact related_bind (h.peek s t hst) fun tok s t hst => related_ite
      (fun _ => related_bind (h.next s t hst) fun _ s t hst => related_bind (ht s t hst)
        fun f s t hst => related_bind (hel s t hst) fun fs s t hst => related_ok _ hst)
      fun _ => related_ok _ hst

theorem related (h : Simulates A B R) (n : Nat) (s : σ) (t : τ) (hst : R s t) :
    Related R (factor A n s) (factor B n t) ∧ Related R (term A n s) (term B n t) ∧
      Related R (termLoop A n s) (termLoop B n t) ∧ Related R (exp A n s) (exp B n t) ∧
      Related R (expLoop A n s) (expLoop B n t) := by
  induction n generalizing s t with
  | zero => exact ⟨rfl, rfl, rfl, rfl, rfl⟩
  | succ n ih =>
    exact step_related h n (fun s t hst => (ih s t hst).1) (fun s t hst => (ih s t hst).2.1)
      (fun s t hst => (ih s t hst).2.2.1) (fun s t hst => (ih s t hst).2.2.2.1)
      (fun s t hst => (ih s t hst).2.2.2.2) s t hst

theorem parseFrom_eq (h : Simulates A B R) (n : Nat) (s : σ) (t : τ) (hst : R s t) :
    parseFrom A n s = parseFrom B n t :=
  related_bind_forget (related h n s t hst).2.2.2.1 fun _ s t hst =>
    related_bind_forget (h.next s t hst) fun _ _ _ _ => rfl

end Netplay.ParserSimulation

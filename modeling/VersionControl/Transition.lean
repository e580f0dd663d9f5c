import VersionControl.Error

/-!
# Transitions

A step from one state to the next that may be refused half way and then keeps what it changed until then.
Main statements: what each way to build a transition does to a given state.
-/

namespace VersionControl

def Transition (σ α : Type) : Type := σ → Except Error α × σ

namespace Transition

variable {σ τ α β : Type}

/-- What follows an answer; a refusal is final. -/
def andThen (f : α → Transition σ β) : Except Error α × σ → Except Error β × σ
  | (.ok a, state) => f a state
  | (.error error, state) => (.error error, state)

instance : Monad (Transition σ) where
  pure a := fun state => (.ok a, state)
  bind t f := fun state => andThen f (t state)

def refuse (error : Error) : Transition σ α := fun state => (.error error, state)

/-- Answers with what is seen of the state, which stays as it is. -/
def look (f : σ → Except Error α) : Transition σ α := fun state => (f state, state)

def see (f : σ → α) : Transition σ α := fun state => (.ok (f state), state)

def update (f : σ → σ) : Transition σ Unit := fun state => (.ok (), f state)

/-- A transition of a part of the state; `put` puts the changed part back. -/
def onPart (part : σ → τ) (put : τ → σ → σ) (t : Transition τ α) : Transition σ α := fun state =>
  let (answer, changed) := t (part state)
  (answer, put changed state)

@[simp] theorem pure_apply (a : α) (state : σ) : (pure a : Transition σ α) state = (.ok a, state) := rfl

@[simp] theorem bind_apply (t : Transition σ α) (f : α → Transition σ β) (state : σ) :
    (t >>= f) state = andThen f (t state) := rfl

@[simp] theorem andThen_ok (f : α → Transition σ β) (a : α) (state : σ) :
    andThen f (.ok a, state) = f a state := rfl

@[simp] theorem andThen_error (f : α → Transition σ β) (error : Error) (state : σ) :
    andThen f (.error error, state) = (.error error, state) := rfl

@[simp] theorem refuse_apply (error : Error) (state : σ) :
    (refuse error : Transition σ α) state = (.error error, state) := rfl

@[simp] theorem look_apply (f : σ → Except Error α) (state : σ) : look f state = (f state, state) := rfl

@[simp] theorem see_apply (f : σ → α) (state : σ) : see f state = (.ok (f state), state) := rfl

@[simp] theorem update_apply (f : σ → σ) (state : σ) : update f state = (.ok (), f state) := rfl

@[simp] theorem onPart_apply (part : σ → τ) (put : τ → σ → σ) (t : Transition τ α) (state : σ) :
    onPart part put t state = ((t (part state)).1, put (t (part state)).2 state) := rfl

end Transition

end VersionControl

import Mathlib.Tactic.Common

namespace Astrolune.Lib

/-- How one call to the outside turns out. A call that fails, or during which the process stops,
may have taken effect, in whole or for its first `written` bytes. -/
inductive Turn where
  | done
  | failed (applied : Bool) (written : Nat)
  | stopped (applied : Bool) (written : Nat)
  deriving DecidableEq

inductive Ended (ε α : Type) where
  | ok (a : α)
  | error (e : ε)
  | stopped
  deriving DecidableEq

/-- A program that changes a state `σ`, whose outside calls turn out as a list of turns says.
Past the end of the list every call works. -/
def Io (σ ε α : Type) := List Turn → σ → (Ended ε α × σ) × List Turn

namespace Io

variable {σ κ ε δ α β : Type}

def bind (m : Io σ ε α) (f : α → Io σ ε β) : Io σ ε β := fun turns s =>
  match m turns s with
  | ((.ok a, s'), rest) => f a rest s'
  | ((.error e, s'), rest) => ((.error e, s'), rest)
  | ((.stopped, s'), rest) => ((.stopped, s'), rest)

instance : Monad (Io σ ε) where
  pure a := fun turns s => ((.ok a, s), turns)
  bind := bind

def call (f : Turn → σ → Ended ε α × σ) : Io σ ε α := fun turns s =>
  (f (turns.headD .done) s, turns.tail)

def fail (e : ε) : Io σ ε α := fun turns s => ((.error e, s), turns)

def give : Except ε α → Io σ ε α
  | .ok a => pure a
  | .error e => fail e

def read (f : σ → α) : Io σ ε α := fun turns s => ((.ok (f s), s), turns)

def modify (f : σ → σ) : Io σ ε Unit := fun turns s => ((.ok (), f s), turns)

/-- The result of a program as a value, whether it succeeded or not. A stop is not caught. -/
def attempt (m : Io σ ε α) : Io σ δ (Except ε α) := fun turns s =>
  match m turns s with
  | ((.ok a, s'), rest) => ((.ok (.ok a), s'), rest)
  | ((.error e, s'), rest) => ((.ok (.error e), s'), rest)
  | ((.stopped, s'), rest) => ((.stopped, s'), rest)

/-- `map_err(|_| e)`. -/
def failingAs (e : δ) (m : Io σ ε α) : Io σ δ α := fun turns s =>
  match m turns s with
  | ((.ok a, s'), rest) => ((.ok a, s'), rest)
  | ((.error _, s'), rest) => ((.error e, s'), rest)
  | ((.stopped, s'), rest) => ((.stopped, s'), rest)

def outer (m : Io σ ε α) : Io (σ × κ) ε α := fun turns s =>
  match m turns s.1 with
  | ((r, s'), rest) => ((r, (s', s.2)), rest)

def supply (k : κ) (m : Io (σ × κ) ε α) : Io σ ε (α × κ) := fun turns s =>
  match m turns (s, k) with
  | ((.ok a, s'), rest) => ((.ok (a, s'.2), s'.1), rest)
  | ((.error e, s'), rest) => ((.error e, s'.1), rest)
  | ((.stopped, s'), rest) => ((.stopped, s'.1), rest)

end Io

structure Post (σ ε α : Type) where
  ok : α → σ → Prop
  error : ε → σ → Prop
  stopped : σ → Prop

def Post.Holds {σ ε α : Type} (Q : Post σ ε α) : Ended ε α × σ → Prop
  | (.ok a, s) => Q.ok a s
  | (.error e, s) => Q.error e s
  | (.stopped, s) => Q.stopped s

/-- From `s`, whatever turns of the allowed kind its calls take, the program ends as asked. -/
def Meets {σ ε α : Type} (T : Turn → Prop) (m : Io σ ε α) (s : σ) (Q : Post σ ε α) : Prop :=
  ∀ turns, (∀ t ∈ turns, T t) → (∀ t ∈ (m turns s).2, T t) ∧ Q.Holds (m turns s).1

def CanFail (T : Turn → Prop) : Prop := ∃ applied written, T (.failed applied written)
def CanStop (T : Turn → Prop) : Prop := ∃ applied written, T (.stopped applied written)

namespace Meets

variable {σ κ ε δ α β : Type} {T : Turn → Prop} {s : σ}

variable {Q : Post σ ε α} {x : Except ε α} {m : Io σ ε α} {k : κ}

lemma pure {a : α} (h : Q.ok a s) : Meets T (Pure.pure a : Io σ ε α) s Q :=
  fun _ ht => ⟨ht,h⟩

lemma fail {e : ε} (h : Q.error e s) : Meets T (Io.fail e : Io σ ε α) s Q :=
  fun _ ht => ⟨ht,h⟩

lemma give (ho : ∀ a, x = .ok a → Q.ok a s)
    (he : ∀ e, x = .error e → Q.error e s) : Meets T (Io.give x) s Q := by
  cases x with
  | ok a => exact pure (ho a rfl)
  | error e => exact fail (he e rfl)

lemma give_ok {a : α} (hx : x = .ok a) (h : Q.ok a s) :
    Meets T (Io.give x) s Q := by
  subst hx
  exact pure h

lemma read {f : σ → α} (h : Q.ok (f s) s) :
    Meets T (Io.read f : Io σ ε α) s Q := fun _ ht => ⟨ht,h⟩

lemma modify {f : σ → σ} {Q : Post σ ε Unit} (h : Q.ok () (f s)) :
    Meets T (Io.modify f : Io σ ε Unit) s Q := fun _ ht => ⟨ht,h⟩

lemma bind {m : Io σ ε α} {f : α → Io σ ε β} {R : α → σ → Prop} {Q : Post σ ε β}
    (hm : Meets T m s ⟨R,Q.error,Q.stopped⟩) (hf : ∀ a s', R a s' → Meets T (f a) s' Q) :
    Meets T (m >>= f) s Q := by
  intro ts ht
  obtain ⟨hr,he⟩ := hm ts ht
  change (∀ t ∈ (Io.bind m f ts s).2, T t) ∧ Q.Holds (Io.bind m f ts s).1
  unfold Io.bind
  rcases hru : m ts s with ⟨⟨_ | _ | _,s'⟩,rest⟩
  all_goals rw [hru] at hr he
  · exact hf _ _ he _ hr
  · exact ⟨hr,he⟩
  · exact ⟨hr,he⟩

lemma mono {Q' : Post σ ε α} (hm : Meets T m s Q)
    (ho : ∀ a s', Q.ok a s' → Q'.ok a s') (her : ∀ e s', Q.error e s' → Q'.error e s')
    (hs : ∀ s', Q.stopped s' → Q'.stopped s') : Meets T m s Q' := by
  intro ts ht
  obtain ⟨hr,he⟩ := hm ts ht
  refine ⟨hr,?_⟩
  rcases hru : m ts s with ⟨⟨_ | _ | _,s'⟩,rest⟩
  all_goals rw [hru] at he
  · exact ho _ _ he
  · exact her _ _ he
  · exact hs _ he

lemma call {f : Turn → σ → Ended ε α × σ} (hd : Q.Holds (f .done s))
    (hf : ∀ applied written, T (.failed applied written) → Q.Holds (f (.failed applied written) s))
    (hs : ∀ applied written, T (.stopped applied written) →
      Q.Holds (f (.stopped applied written) s)) : Meets T (Io.call f) s Q := by
  intro ts htu
  refine ⟨fun t ht => htu t (List.mem_of_mem_tail ht),?_⟩
  change Q.Holds (f (ts.headD .done) s)
  cases ts with
  | nil => exact hd
  | cons t rest =>
    have ht := htu t List.mem_cons_self
    cases t with
    | done => exact hd
    | failed applied written => exact hf applied written ht
    | stopped applied written => exact hs applied written ht

lemma attempt {Q : Post σ δ (Except ε α)}
    (hm : Meets T m s ⟨fun a => Q.ok (.ok a),fun e => Q.ok (.error e),Q.stopped⟩) :
    Meets T (Io.attempt m) s Q := by
  intro ts ht
  obtain ⟨hr,he⟩ := hm ts ht
  unfold Io.attempt
  rcases hru : m ts s with ⟨⟨_ | _ | _,s'⟩,rest⟩
  all_goals
    rw [hru] at hr he
    exact ⟨hr,he⟩

lemma attemptThen {f : Except ε α → Io σ δ β} {Q : Post σ δ β} (ok : α → σ → Prop)
    (error : ε → σ → Prop) (hm : Meets T m s ⟨ok,error,Q.stopped⟩)
    (ho : ∀ a s', ok a s' → Meets T (f (.ok a)) s' Q)
    (he : ∀ e s', error e s' → Meets T (f (.error e)) s' Q) : Meets T (Io.attempt m >>= f) s Q := by
  refine bind (R := fun x s' => Meets T (f x) s' Q) (attempt (hm.mono ho he fun _ => id)) ?_
  exact fun _ _ h => h

lemma failingAs {e : δ} {Q : Post σ δ α}
    (hm : Meets T m s ⟨Q.ok,fun _ => Q.error e,Q.stopped⟩) :
    Meets T (Io.failingAs e m) s Q := by
  intro ts ht
  obtain ⟨hr,he⟩ := hm ts ht
  unfold Io.failingAs
  rcases hru : m ts s with ⟨⟨_ | _ | _,s'⟩,rest⟩
  all_goals
    rw [hru] at hr he
    exact ⟨hr,he⟩

lemma outer {Q : Post (σ × κ) ε α}
    (hm : Meets T m s ⟨fun a s' => Q.ok a (s',k),fun e s' => Q.error e (s',k),
      fun s' => Q.stopped (s',k)⟩) : Meets T (Io.outer m) (s,k) Q := by
  intro ts ht
  obtain ⟨hr,he⟩ := hm ts ht
  unfold Io.outer
  dsimp only
  rcases hru : m ts s with ⟨⟨_ | _ | _,s'⟩,rest⟩
  all_goals
    rw [hru] at hr he
    exact ⟨hr,he⟩

lemma supply {m : Io (σ × κ) ε α} {Q : Post σ ε (α × κ)}
    (hm : Meets T m (s,k) ⟨fun a s' => Q.ok (a,s'.2) s'.1,fun e s' => Q.error e s'.1,
      fun s' => Q.stopped s'.1⟩) : Meets T (Io.supply k m) s Q := by
  intro ts ht
  obtain ⟨hr,he⟩ := hm ts ht
  unfold Io.supply
  rcases hru : m ts (s,k) with ⟨⟨_ | _ | _,s'⟩,rest⟩
  all_goals
    rw [hru] at hr he
    exact ⟨hr,he⟩

lemma outer_bind {f : α → Io (σ × κ) ε β} {R : α → σ → Prop}
    {Q : Post (σ × κ) ε β}
    (hm : Meets T m s ⟨R,fun e t => Q.error e (t,k),fun t => Q.stopped (t,k)⟩)
    (hf : ∀ a t, R a t → Meets T (f a) (t,k) Q) : Meets T (Io.outer m >>= f) (s,k) Q := by
  refine Meets.bind (R := fun a t => R a t.1 ∧ t.2 = k) (outer (mono hm ?_ ?_ ?_)) ?_
  · exact fun a t h => ⟨h,rfl⟩
  · exact fun _ _ => id
  · exact fun _ => id
  · rintro a ⟨t,_⟩ ⟨h,rfl⟩
    exact hf a t h

end Meets

/-- However its calls turn out, the program keeps `I`. -/
def Maintains {σ ε α : Type} (I : σ → Prop) (m : Io σ ε α) : Prop := ∀ turns s, I s → I (m turns s).1.2

namespace Maintains

variable {σ κ ε δ α β : Type} {I : σ → Prop}

lemma pure (a : α) : Maintains I (Pure.pure a : Io σ ε α) := fun _ _ h => h

lemma fail (e : ε) : Maintains I (Io.fail e : Io σ ε α) := fun _ _ h => h

lemma give (x : Except ε α) : Maintains I (Io.give x : Io σ ε α) := by
  cases x
  · exact fail _
  · exact pure _

lemma read (f : σ → α) : Maintains I (Io.read f : Io σ ε α) := fun _ _ h => h

lemma modify {f : σ → σ} (hf : ∀ s, I s → I (f s)) : Maintains I (Io.modify f : Io σ ε Unit) :=
  fun _ s h => hf s h

lemma bind {m : Io σ ε α} {f : α → Io σ ε β} (hm : Maintains I m) (hf : ∀ a, Maintains I (f a)) :
    Maintains I (m >>= f) := by
  intro ts s h
  have hn := hm ts s h
  change I (Io.bind m f ts s).1.2
  unfold Io.bind
  rcases hr : m ts s with ⟨⟨_ | _ | _,s'⟩,rest⟩
  all_goals rw [hr] at hn
  · exact hf _ _ _ hn
  · exact hn
  · exact hn

lemma attempt {m : Io σ ε α} (hm : Maintains I m) : Maintains I (Io.attempt m : Io σ δ (Except ε α)) := by
  intro ts s h
  have hn := hm ts s h
  unfold Io.attempt
  rcases hr : m ts s with ⟨⟨_ | _ | _,s'⟩,rest⟩
  all_goals
    rw [hr] at hn
    exact hn

lemma outer {I : κ → Prop} (m : Io σ ε α) : Maintains (fun s : σ × κ => I s.2) (Io.outer m) :=
  fun _ _ h => h

lemma meets {m : Io σ ε α} {T : Turn → Prop} {s : σ} (hm : Maintains I m) (hs : I s)
    (hT : ∀ t, T t) : Meets T m s ⟨fun _ => I,fun _ => I,I⟩ := by
  intro ts _
  refine ⟨fun t _ => hT t,?_⟩
  have hn := hm ts s hs
  rcases hr : (m ts s).1 with ⟨_ | _ | _,s'⟩
  all_goals
    rw [hr] at hn
    exact hn

end Maintains

/-- The program returns `a` in `s'`, unless a call fails or the process stops; then `J` holds. -/
def Leads {σ ε α : Type} (T : Turn → Prop) (J : σ → Prop) (m : Io σ ε α) (s : σ) (a : α) (s' : σ) :
    Prop :=
  Meets T m s ⟨fun x t => x = a ∧ t = s', fun _ t => CanFail T ∧ J t, fun t => CanStop T ∧ J t⟩

namespace Leads

variable {σ κ ε δ α β : Type} {T : Turn → Prop} {J : σ → Prop} {s s' s'' : σ}

lemma pure (a : α) (s : σ) : Leads T J (Pure.pure a : Io σ ε α) s a s := Meets.pure ⟨rfl,rfl⟩

variable {a : α} {m : Io σ ε α} {J' : σ × κ → Prop} {k : κ}

lemma give {x : Except ε α} (h : x = .ok a) : Leads T J (Io.give x) s a s :=
  Meets.give_ok h ⟨rfl,rfl⟩

lemma read (f : σ → α) (s : σ) : Leads T J (Io.read f : Io σ ε α) s (f s) s := Meets.read ⟨rfl,rfl⟩

lemma modify (f : σ → σ) (s : σ) : Leads T J (Io.modify f : Io σ ε Unit) s () (f s) :=
  Meets.modify ⟨rfl,rfl⟩

lemma bind {m : Io σ ε α} {f : α → Io σ ε β} {a : α} {b : β} (hm : Leads T J m s a s')
    (hf : Leads T J (f a) s' b s'') : Leads T J (m >>= f) s b s'' := by
  refine Meets.bind hm ?_
  rintro _ _ ⟨rfl,rfl⟩
  exact hf

lemma andThen {f : α → Io σ ε β} {Q : Post σ ε β}
    (hm : Leads T J m s a s') (hf : Meets T (f a) s' Q)
    (he : ∀ e t, CanFail T → J t → Q.error e t) (hs : ∀ t, CanStop T → J t → Q.stopped t) :
    Meets T (m >>= f) s Q := by
  refine Meets.bind (Meets.mono hm (fun _ _ => id) (fun e t h => he e t h.1 h.2)
    (fun t h => hs t h.1 h.2)) ?_
  rintro _ _ ⟨rfl,rfl⟩
  exact hf

lemma failingAs (e : δ) (h : Leads T J m s a s') : Leads T J (Io.failingAs e m) s a s' :=
  Meets.failingAs (Meets.mono h (fun _ _ => id) (fun _ _ => id) (fun _ => id))

lemma outer (h : Leads T J m s a s')
    (hJ : ∀ t, J t → J' (t,k)) : Leads T J' (Io.outer m) (s,k) a (s',k) :=
  Meets.outer (Meets.mono h (fun _ _ h => ⟨h.1,by rw [h.2]⟩) (fun _ t ht => ⟨ht.1,hJ t ht.2⟩)
    (fun t ht => ⟨ht.1,hJ t ht.2⟩))

lemma supply {m : Io (σ × κ) ε α} {k' : κ}
    (h : Leads T J' m (s,k) a (s',k')) (hJ : ∀ t, J' t → J t.1) :
    Leads T J (Io.supply k m) s (a,k') s' :=
  Meets.supply (Meets.mono h (fun _ _ h => ⟨by rw [h.1,h.2],by rw [h.2]⟩)
    (fun _ t ht => ⟨ht.1,hJ t ht.2⟩) (fun t ht => ⟨ht.1,hJ t ht.2⟩))

lemma outer_andThen {f : α → Io (σ × κ) ε β}
    {Q : Post (σ × κ) ε β} (hm : Leads T J m s a s') (hf : Meets T (f a) (s',k) Q)
    (he : ∀ e t, CanFail T → J t → Q.error e (t,k))
    (hs : ∀ t, CanStop T → J t → Q.stopped (t,k)) :
    Meets T (Io.outer m >>= f) (s,k) Q := by
  refine Meets.outer_bind (Meets.mono hm (fun _ _ => id) (fun e t h => he e t h.1 h.2)
    (fun t h => hs t h.1 h.2)) ?_
  rintro _ _ ⟨rfl,rfl⟩
  exact hf

end Leads

def Done (t : Turn) : Prop := t = .done

lemma not_canFail : ¬CanFail Done := by
  intro ⟨_,_,h⟩
  cases h

lemma not_canStop : ¬CanStop Done := by
  intro ⟨_,_,h⟩
  cases h

section Returns

variable {σ ε α : Type} {R : α → σ → Prop} {m : Io σ ε α} {s s' : σ}

def Post.returns (R : α → σ → Prop) : Post σ ε α := ⟨R, fun _ _ => False, fun _ => False⟩

variable {J : σ → Prop} {a : α} {ts : List Turn}

lemma Leads.returns (h : Leads Done J m s a s') :
    Meets Done m s (.returns fun x t => x = a ∧ t = s') :=
  Meets.mono h (fun _ _ => id) (fun _ _ hf => not_canFail hf.1) (fun _ hs => not_canStop hs.1)

lemma Leads.thenReturns {β : Type} {f : α → Io σ ε β} {R : β → σ → Prop}
    (hm : Leads Done J m s a s') (hf : Meets Done (f a) s' (.returns R)) :
    Meets Done (m >>= f) s (.returns R) :=
  hm.andThen hf (fun _ _ hf => absurd hf not_canFail) (fun _ hs => absurd hs not_canStop)

lemma Meets.ended_ok (hm : Meets Done m s (.returns R))
    (ht : ∀ t ∈ ts, Done t) : ∃ a s', (m ts s).1 = (.ok a,s') ∧ R a s' := by
  have he := (hm ts ht).2
  rcases hr : (m ts s).1 with ⟨a | e | _,s'⟩
  all_goals rw [hr] at he
  · exact ⟨a,s',rfl,he⟩
  · exact he.elim
  · exact he.elim

def Io.answer (m : Io σ ε α) (s : σ) : Ended ε α := (m [] s).1.1

lemma Meets.answer {x : Ended ε α}
    (h : Meets Done m s ⟨fun a _ => x = .ok a,fun e _ => x = .error e,fun _ => False⟩) :
    m.answer s = x := by
  have he := (h [] (List.forall_mem_nil _)).2
  unfold Io.answer
  rcases hr : (m [] s).1 with ⟨a | e | _,s'⟩
  all_goals rw [hr] at he
  · exact he.symm
  · exact he.symm
  · exact he.elim

lemma Leads.answer (h : Leads Done J m s a s') : m.answer s = .ok a := by
  apply Meets.answer
  refine Meets.mono h.returns ?_ (fun _ _ => False.elim) (fun _ => id)
  rintro _ _ ⟨rfl,-⟩
  rfl

end Returns
end Astrolune.Lib

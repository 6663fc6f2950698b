import CommServer.Incl
import Mathlib.Logic.Relation

/-!
# Forwarder — what the service is for, seen by its clients

A client has one connection.  It is accepted, it is written to, and it is hung up; after that nothing
happens to it any more.  A forwarder has many connections, and does one of these to one of them at a
time.

* `Line`, `Line.Step` : one connection;
* `Forwarder.Step`    : all of them;
* `Line.Step.grows`   : what stands on a connection is not taken back.
-/

namespace CommServer
namespace Protocol

open CLib

/-- What has become of a connection, and what was written to it. -/
inductive Line
  | unknown
  | talking (sent : List Byte)
  | ended (sent : List Byte)
  deriving DecidableEq, Repr

namespace Line

def sent : Line → List Byte
  | .unknown => []
  | .talking w | .ended w => w

inductive Step : Line → Line → Prop
  | accept : Step .unknown (.talking [])
  | put (w x : List Byte) : Step (.talking w) (.talking (w ++ x))
  | hangUp (w : List Byte) : Step (.talking w) (.ended w)

theorem Step.grows {l l' : Line} (h : Step l l') : l.sent <+: l'.sent := by
  cases h with
  | accept => exact List.prefix_refl _
  | put w x => exact List.prefix_append w x
  | hangUp w => exact List.prefix_refl _

theorem not_step_ended {w : List Byte} {l : Line} : ¬ Step (.ended w) l :=
  nofun

end Line

namespace Forwarder

/-- A step on one connection. -/
def Step (f g : Nat → Line) : Prop :=
  ∃ c, Line.Step (f c) (g c) ∧ ∀ k, k ≠ c → g k = f k

/-- What the steps on one connection preserve, the forwarder preserves for it. -/
theorem Step.preserves {P : Line → Prop} (hP : ∀ l l', P l → Line.Step l l' → P l') {f g : Nat → Line}
    (h : Step f g) {c : Nat} (hc : P (f c)) : P (g c) := by
  rcases h with ⟨k, hstep, hothers⟩
  by_cases heq : c = k
  · subst heq
    exact hP _ _ hc hstep
  · rw [hothers c heq]
    exact hc

/-- A connection that has ended stays as it is. -/
theorem Step.ended {f g : Nat → Line} (h : Step f g) {c : Nat} {w : List Byte}
    (hc : f c = .ended w) : g c = .ended w :=
  h.preserves (P := fun l => l = .ended w)
    (fun _ _ hl hstep => absurd (hl ▸ hstep) Line.not_step_ended) hc

theorem Step.grows {f g : Nat → Line} (h : Step f g) {c : Nat} {w : List Byte}
    (hc : w <+: (f c).sent) : w <+: (g c).sent :=
  h.preserves (P := fun l => w <+: l.sent) (fun _ _ hl hstep => hl.trans hstep.grows) hc

end Forwarder

end Protocol
end CommServer

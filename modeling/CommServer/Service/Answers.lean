import CommServer.Child.Calls
import CommServer.Service.Isolation

/-!
# Answers — every client gets the answer to its own request

However the steps of the service are interleaved, what goes out on a connection is the timeout response
or the answer to the one Tuxedo call that its child has made, with a service name and a data packet out
of the bytes that came in on the same connection.

* `service_answers` : this holds of every connection in every run in which every alarm strikes a child
  inside `process_main` that has sent nothing.
-/

namespace CommServer

open CLib Unix Transition

/-- The child of the connection, and what it was asked and has answered. -/
theorem service_answers {as : List (Pid × Act)} {s : Sys} {c : Nat} {q : Pid}
    (h : exec sysStep Sys.init as = some s)
    (hC : Along sysStep (OnChildren BeforeOutput) Sys.init as) (hq : Served s.log c q) :
    ∃ cfg ch, exec (childStep cfg) Child.init (childActs as q) = some ch ∧
      sentOn c Sys.init as = ch.wire ∧ Child.Answers cfg (childActs as q) (sentOn c Sys.init as) := by
  rcases (heard_exec h hC c).served q hq with ⟨cfg, ch, hlife⟩
  refine ⟨cfg, ch, hlife.alone, hlife.sent, ?_⟩
  rw [hlife.sent]
  exact answers_exec hlife.along hlife.alone

/-- `1$A$b`, which Tuxedo answers with `B`. -/
def answeredRun : List (Pid × Act) :=
  servedRun ++
    [(2, .child (.localPort true)), (2, .child .go),
     (2, .child (.enter .clear (.value 87380) [0x31, dollar, 0x41, dollar, 0x62])),
     (2, .child (.recv ⟨[.event true (.value 5)], .data 5⟩)),
     (2, .child (.recv ⟨[.expired], .data 0⟩)), (2, .child .go),
     (2, .child (.tux (.returning 0 1 [0x42]))), (2, .child .go),
     (2, .child (.send (.accepted 3))), (2, .child (.send (.accepted 3)))]

theorem service_answers_sample :
    ∃ cfg ch, exec (childStep cfg) Child.init (childActs answeredRun 2) = some ch ∧
      sentOn 1 Sys.init answeredRun = ch.wire ∧
      Child.Answers cfg (childActs answeredRun 2) (sentOn 1 Sys.init answeredRun) := by
  have hlog : (exec sysStep Sys.init answeredRun).map
      (fun s => decide (Event.forked 1 (some (.conn 1)) (some 2) ∈ s.log)) = some true := by
    decide +kernel
  have hC : Along sysStep (OnChildren BeforeOutput) Sys.init answeredRun :=
    beforeOutput_of_quiet (by simp [answeredRun, servedRun]) _
  rcases Option.map_eq_some_iff.1 hlog with ⟨s, hrun, hmem⟩
  exact service_answers hrun hC ⟨1, of_decide_eq_true hmem⟩

end CommServer

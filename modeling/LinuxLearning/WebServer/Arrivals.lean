-- SUMMARY: The statements with which the main loop takes on a connection and queues its request, as runs.
import LinuxLearning.Common.Run
import LinuxLearning.WebServer.Server

/-!
# Arrivals

What the main loop does, undisturbed, from the event of the listening socket to the end of
`init`, and from the event of a connection to `append`.
-/

namespace WebServer

open Http Transition

variable {n m : Nat}

/-- A client connects, and `accept` returns `fd`. -/
def connect (fd : Int) : List Action :=
  [.wait [.listen], .accept fd, .main, .main, .main, .main, .main]

def Server.connected (s : Server) (fd : Int) : Server :=
  { s with
    users := Function.update s.users fd ((s.users fd).initSock fd)
    userCount := s.userCount + 1
    opened := insert fd s.opened
    epoll := Function.update s.epoll fd (some (some .epollin))
    inited := Function.update s.inited fd true
    accepted := Function.update s.accepted fd (s.accepted fd + 1) }

theorem disarm_listen (epoll : Int → Option (Option Interest)) : disarm epoll [.listen] = epoll := by
  funext x
  simp [disarm, Event.sockfd]

/-- The statements of `init(sockfd, addr)`. -/
theorem init_run (s : Server) (fd : Int) (hst : s.threads .main = some (fd, .init .sock)) (hopen : fd ∈ s.opened)
    (hepoll : s.epoll fd = none) :
    Run (Step n m) s [.main, .main, .main, .main]
      { s with
        users := Function.update s.users fd ((s.users fd).initSock fd)
        userCount := s.userCount + 1
        epoll := Function.update s.epoll fd (some (some .epollin))
        inited := Function.update s.inited fd true
        threads := Function.update s.threads .main none } := by
  refine .cons (.init hst) (.cons (.init (Server.setThread_self _ .main (some (fd, .init .add))))
    (.cons (.init (Server.setThread_self _ .main (some (fd, .init .count))))
      (.cons (.init (Server.setThread_self _ .main (some (fd, .init .fields)))) (Run.nil_iff.mpr ?_))))
  simp [Server.initStep, Server.setThread, Server.setSockfd, Server.setUser, Server.addfd, hopen, hepoll,
    HttpConn.initSock]

theorem connect_run (s : Server) (fd : Int) (hmain : s.threads .main = none) (hevents : s.events = []) (hnonneg : 0 ≤ fd)
    (hfd : fd ∉ s.opened) (hepoll : s.epoll fd = none) (hcount : s.userCount < maxFd) :
    Run (Step n m) s (connect fd) (s.connected fd) := by
  have hreports : Reports s.epoll [.listen] := ⟨by decide, by decide, by simp⟩
  suffices h : ∃ t, Run (Step n m) s (connect fd) t ∧ t = s.connected fd by
    obtain ⟨t, hrun, rfl⟩ := h
    exact hrun
  refine ⟨_, .cons (.wait [.listen] hmain hevents hreports) (.cons (.accept hmain rfl hnonneg hfd)
    (.cons (@Step.checkCount _ _ _ fd rfl) (init_run _ fd ?_ ?_ ?_))), ?_⟩
  · simp [Server.setThread, Server.accept, Int.not_le.mpr hcount]
  · simp [Server.setThread, Server.accept]
  · simpa [Server.setThread, Server.accept, disarm_listen] using hepoll
  · simp [Server.connected, Server.setThread, Server.accept, disarm_listen, hevents, ← hmain]

/-- The client of `fd` sends a request, and `read` takes what `recv` returns. -/
def request (fd : Int) (rs : List HttpConn.Recv) : List Action :=
  [.wait [.client fd .epollin], .next, .read rs]

theorem request_run (s : Server) (fd : Int) (rs : List HttpConn.Recv) (hmain : s.threads .main = none) (hevents : s.events = [])
    (hepoll : s.epoll fd = some (some .epollin)) (hsock : (s.users fd).sockfd ∈ s.opened)
    (hread : ((s.users fd).read rs).2 = true) :
    Run (Step n m) s (request fd rs)
      { s with
        users := Function.update s.users fd ((s.users fd).read rs).1
        epoll := Function.update s.epoll fd (some none)
        threads := Function.update s.threads .main (some (fd, .append)) } := by
  have hreports : Reports s.epoll [.client fd .epollin] := by
    refine ⟨by simp [maxEventNumber], List.nodup_singleton _, ?_⟩
    rintro _ _ (_ | ⟨_, ⟨⟩⟩)
    exact ⟨.epollin, hepoll, trivial⟩
  have hdisarm : disarm s.epoll [.client fd .epollin] = Function.update s.epoll fd (some none) := by
    funext x
    simp [disarm, Event.sockfd, Function.update_apply]
  refine .cons (.wait _ hmain hevents hreports) (.cons (.next hmain rfl)
    (.cons (@Step.read _ _ _ fd rs rfl (.inl hsock)) (Run.nil_iff.mpr ?_)))
  simp [Server.setThread, Server.setUser, hdisarm, hevents, hread]

end WebServer

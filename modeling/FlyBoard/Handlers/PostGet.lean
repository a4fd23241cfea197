import FlyBoard.Db.Post
import FlyBoard.Lib.Run
import FlyBoard.Utils.Cache
import FlyBoard.Utils.Reqshare

/-!
# Anonymous visits of a post (`handler_post_get` in `src/handlers/post.c`)

A visit looks its page up in the page cache, then loads the post, and then
either shares the rendering of another visit or leads: it renders, stores the
page in the cache and hands it to the visits that wait. These are the steps
here; the steps of any number of visits, of the refresh jobs that stale hits
schedule and of everything else that runs in the server interleave freely.

The cached and shared page is found by slug, theme, device, role and user. The
page itself also has the delete PIN of the visit that rendered it. So other
visits get that PIN, unless the visit that brings one never leads.
-/

namespace FlyBoard.PostGet

open Bytes Db Run

/-- What the handler reads of an anonymous request. -/
structure Request where
  slug : Bytes
  dark : Bool
  mobile : Bool
  deletePin : Option Bytes
  /-- `X-Fly-Head-Rewrite` -/
  headRewrite : Bool

/-- The parts of the server that the handler calls: the database, the page around
the delete PIN as an anonymous visitor gets it, and the HTML escaping of cwist. -/
structure Site (δ : Type*) where
  limits : PageCache.Limits
  postBySlug : δ → Bytes → Option Post
  /-- `write_policy_generation` and `post_schedule_generation` -/
  generations : δ → ℕ × ℕ
  page : δ → Post → (dark mobile : Bool) → (pinCard : Bytes) → Option Bytes
  incrementView : δ → Post → δ
  escape : Bytes → Bytes

structure Response where
  status : ℕ
  body : Bytes
deriving DecidableEq

/-- `post_detail_refresh_job` and how far it is. -/
structure Job where
  key : Bytes
  slug : Bytes
  dark : Bool
  mobile : Bool
  generation : ℕ
  /-- The rendered page, once there is one to store. -/
  page : Option Bytes
  /-- Rendering and storing are over. -/
  stored : Bool

inductive Phase where
  | idle
  | missed (key : Bytes)
  | loaded (key : Bytes) (post : Post)
  | waiting (key : Bytes) (post : Post) (name : ℕ)
  | leading (key : Bytes) (post : Post)
  | rendered (key : Bytes) (page : Option Bytes)
  | stored (key : Bytes) (page : Option Bytes)
  | answered (res : Response)
deriving DecidableEq

structure Shared (δ : Type*) where
  db : δ
  cache : PageCache.Cache
  share : Reqshare.Table
  jobs : List Job

structure State (ι δ : Type*) where
  shared : Shared δ
  phase : ι → Phase

/-- A step of a visit or of a queued refresh job, at a time, or whatever else the
server does meanwhile. -/
inductive Action (ι δ : Type*) where
  | visit (i : ι) (now : ℕ)
  | refresh (job : ℕ) (now : ℕ)
  | other (f : Shared δ → Shared δ)

variable {ι δ : Type*}

/-! ## Rendering -/

/-- The card of `render_post_detail` with the delete PIN. -/
def pinCard (site : Site δ) : Option Bytes → Bytes
  | none => []
  | some pin =>
    if pin.isEmpty then []
    else
      bytes "<div class='card' style='margin-bottom:16px;border-color:var(--accent)'>" ++
      bytes "<strong>Delete PIN</strong><div style='margin-top:6px;color:var(--muted)'>Save this now. It is only shown once for this anonymous post.</div><div style='margin-top:8px'><code>" ++
      site.escape pin ++ bytes "</code></div></div>"

/-- `post_detail_render` for an anonymous visitor; the view is counted in the database. -/
def postDetailRender (site : Site δ) (db : δ) (post : Post) (dark mobile : Bool) (now : ℕ)
    (incrementView : Bool) (deletePin : Option Bytes) : Option Bytes × δ :=
  let isPublic := post.isPublic now && post.status != .pending
  let db := if 0 < post.id ∧ isPublic ∧ incrementView then site.incrementView db post else db
  (site.page db post dark mobile (pinCard site deletePin), db)

/-- `send_html_res` -/
def sendHtml : Option Bytes → Response
  | some html => ⟨200, html.cstr⟩
  | none => ⟨500, bytes "render error"⟩

/-! ## Steps -/

/-- `post_detail_schedule_refresh` through `engine_refresh_schedule`. -/
def scheduleRefresh (sh : Shared δ) (key slug : Bytes) (dark mobile : Bool) (now : ℕ) :
    Shared δ :=
  match Reqshare.tryStart sh.share key now with
  | (false, share) => { sh with share := share }
  | (true, share) =>
    { sh with
      share := share,
      jobs := sh.jobs ++ [⟨key, slug, dark, mobile, sh.cache.generation, none, false⟩] }

def lookup (site : Site δ) (req : Request) (now : ℕ) (sh : Shared δ) : Phase × Shared δ :=
  let (w, pg) := site.generations sh.db
  let key := PageCache.keyPost req.slug req.dark req.mobile [] 0 w pg
  match sh.cache.get site.limits key now with
  | (some html, cache) => (.answered ⟨200, html⟩, { sh with cache := cache })
  | (none, cache) =>
    match cache.getStale site.limits key now with
    | (some html, cache) =>
      (.answered ⟨200, html⟩,
        scheduleRefresh { sh with cache := cache } key req.slug req.dark req.mobile now)
    | (none, cache) => (.missed key, { sh with cache := cache })

/-- Loading the post. An anonymous visitor is neither author nor reviewer. -/
def load (site : Site δ) (req : Request) (key : Bytes) (now : ℕ) (sh : Shared δ) : Phase :=
  match site.postBySlug sh.db req.slug with
  | none => .answered ⟨404, bytes "Not found"⟩
  | some post =>
    if post.isPublic now && post.status != .pending then .loaded key post
    else .answered ⟨404, bytes "Not found"⟩

def takeTurn (key : Bytes) (post : Post) (sh : Shared δ) :
    Reqshare.Turn × Reqshare.Table → Phase × Shared δ
  | (.leads, share) => (.leading key post, { sh with share := share })
  | (.shared html, share) => (.answered (sendHtml (some html)), { sh with share := share })
  | (.waits name, share) => (.waiting key post name, { sh with share := share })

def visitStep (site : Site δ) (req : Request) (now : ℕ) (sh : Shared δ) : Phase → Phase × Shared δ
  | .idle => lookup site req now sh
  | .missed key => (load site req key now sh, sh)
  | .loaded key post => takeTurn key post sh (Reqshare.waitOrStart sh.share key now)
  | .waiting key post name => takeTurn key post sh (Reqshare.wake sh.share key name now)
  | .leading key post =>
    let (page, db) := postDetailRender site sh.db post req.dark req.mobile now
      (!req.headRewrite) req.deletePin
    (.rendered key page, { sh with db := db })
  | .rendered key (some page) =>
    -- an anonymous visitor only leads for a public post, which is always cached
    (.stored key (some page), { sh with cache := sh.cache.set site.limits key page 60 0 now })
  | .rendered key none => (.stored key none, sh)
  | .stored key page =>
    (.answered (sendHtml page), { sh with share := Reqshare.finish sh.share key page now })
  | .answered res => (.answered res, sh)

/-- `post_detail_refresh`: the page is rendered without a delete PIN. -/
def renderJob (site : Site δ) (now : ℕ) (db : δ) (job : Job) : Option Bytes :=
  match site.postBySlug db job.slug with
  | none => none
  | some post =>
    if post.isPublic now && post.status != .pending then
      (postDetailRender site db post job.dark job.mobile now false none).1
    else none

def refreshStep (site : Site δ) (now : ℕ) (sh : Shared δ) (n : ℕ) : Shared δ :=
  match sh.jobs[n]? with
  | none => sh
  | some job =>
    if job.stored then
      { sh with
        share := Reqshare.finish sh.share job.key none now,
        jobs := sh.jobs.eraseIdx n }
    else
      match job.page with
      | none =>
        let page := renderJob site now sh.db job
        { sh with jobs := sh.jobs.set n { job with page := page, stored := page.isNone } }
      | some page =>
        { sh with
          cache := sh.cache.set site.limits job.key page 60 job.generation now,
          jobs := sh.jobs.set n { job with stored := true } }

def step [DecidableEq ι] (site : Site δ) (reqs : ι → Request) (s : State ι δ) :
    Action ι δ → State ι δ
  | .visit i now =>
    let out := visitStep site (reqs i) now s.shared (s.phase i)
    ⟨out.2, Function.update s.phase i out.1⟩
  | .refresh n now => { s with shared := refreshStep site now s.shared n }
  | .other f => { s with shared := f s.shared }

/-! ## One visitor's PIN and the others -/

variable [DecidableEq ι]

def withPin (reqs : ι → Request) (a : ι) (pin : Option Bytes) : ι → Request :=
  Function.update reqs a { reqs a with deletePin := pin }

def answer (s : State ι δ) (i : ι) : Option Response :=
  match s.phase i with
  | .answered res => some res
  | _ => none

/-- Visits without a PIN of their own are answered the same, whichever of the two
PINs visit `a` brings. -/
def OthersSeeNothing (site : Site δ) (reqs : ι → Request) (a : ι) (pin pin' : Option Bytes)
    (s : State ι δ) (acts : List (Action ι δ)) : Prop :=
  ∀ b, b ≠ a → (reqs b).deletePin = none →
    answer (run (step site (withPin reqs a pin)) s acts) b =
      answer (run (step site (withPin reqs a pin')) s acts) b

def Phase.isLeading : Phase → Bool
  | .leading _ _ => true
  | _ => false

/-- Visit `a` does not render its page, unless neither PIN is shown on it (or both
are the same). -/
def LeavesRendering (site : Site δ) (a : ι) (pin pin' : Option Bytes) (s : State ι δ) :
    Action ι δ → Prop
  | .visit i _ => i = a → (s.phase a).isLeading = true → pinCard site pin = pinCard site pin'
  | _ => True

instance (site : Site δ) (a : ι) (pin pin' : Option Bytes) (s : State ι δ) :
    ∀ act, Decidable (LeavesRendering site a pin pin' s act)
  | .visit i _ => inferInstanceAs (Decidable (i = a → _ → _))
  | .refresh _ _ => instDecidableTrue
  | .other _ => instDecidableTrue

section Pins

variable {site : Site δ} {reqs : ι → Request} {a : ι} {pin pin' : Option Bytes}

theorem withPin_of_ne {i : ι} (h : i ≠ a) : withPin reqs a pin i = reqs i :=
  Function.update_of_ne h _ _

theorem withPin_self : withPin reqs a pin a = { reqs a with deletePin := pin } :=
  Function.update_self _ _ _

theorem visitStep_pin (req : Request) (now : ℕ) (sh : Shared δ) (phase : Phase)
    (h : phase.isLeading = true → pinCard site pin = pinCard site pin') :
    visitStep site { req with deletePin := pin } now sh phase =
      visitStep site { req with deletePin := pin' } now sh phase := by
  cases phase with
  | leading key post =>
    have hcard := h rfl
    simp only [visitStep, postDetailRender, hcard]
  | idle => rfl
  | missed => rfl
  | loaded => rfl
  | waiting => rfl
  | rendered key page => cases page <;> rfl
  | stored => rfl
  | answered => rfl

theorem step_pin (s : State ι δ) (act : Action ι δ)
    (h : LeavesRendering site a pin pin' s act) :
    step site (withPin reqs a pin) s act = step site (withPin reqs a pin') s act := by
  cases act with
  | visit i now =>
    by_cases hi : i = a
    · subst hi
      have hvisit := visitStep_pin (reqs i) now s.shared (s.phase i) (h rfl)
      simp only [step, withPin_self, hvisit]
    · simp only [step, withPin_of_ne hi]
  | refresh n now => rfl
  | other f => rfl

end Pins

/-- In every run in which visit `a` leaves the rendering to others or shows no PIN,
no other visit is answered differently for the PIN that `a` brings: whatever is in
the cache, stale or being rendered at the start, and whatever else runs. -/
theorem others_see_nothing (site : Site δ) (reqs : ι → Request) (a : ι)
    (pin pin' : Option Bytes) (s : State ι δ) (acts : List (Action ι δ))
    (h : AllSteps (step site (withPin reqs a pin)) (LeavesRendering site a pin pin') s acts) :
    OthersSeeNothing site reqs a pin pin' s acts := by
  have hrun : run (step site (withPin reqs a pin)) s acts =
      run (step site (withPin reqs a pin')) s acts :=
    h.run_congr fun s act => step_pin s act
  intro b _ _
  rw [hrun]

def plainSite : Site Unit where
  limits := ⟨64 * 1024 * 1024, 0⟩
  postBySlug _ _ := some ⟨1, 0, 0, bytes "hello", bytes "first post", .published, 0⟩
  generations _ := (1, 1)
  page _ post _ _ card := some (card ++ post.content)
  incrementView _ _ := ()
  escape := id

/-- Visits of that post, in the light theme on a desktop. -/
def plainVisits : Fin 2 → Request := fun _ => ⟨bytes "hello", false, false, none, false⟩

/-- Nothing cached, nothing under way. -/
def quiet : State (Fin 2) Unit := ⟨⟨(), PageCache.empty, ⟨[], 0⟩, []⟩, fun _ => .idle⟩

def oneThen (i j : Fin 2) : List (Action (Fin 2) Unit) :=
  List.replicate 6 (.visit i 1000) ++ [.visit j 1010]

/-- The visit with the PIN comes second and is served from the cache. -/
theorem second_visit_keeps_its_pin :
    AllSteps (step plainSite (withPin plainVisits 1 (some (bytes "4f0c2a"))))
      (LeavesRendering plainSite 1 (some (bytes "4f0c2a")) none) quiet (oneThen 0 1) ∧
    OthersSeeNothing plainSite plainVisits 1 (some (bytes "4f0c2a")) none quiet (oneThen 0 1) := by
  have h : AllSteps (step plainSite (withPin plainVisits 1 (some (bytes "4f0c2a"))))
      (LeavesRendering plainSite 1 (some (bytes "4f0c2a")) none) quiet (oneThen 0 1) := by
    decide +kernel
  exact ⟨h, others_see_nothing _ _ _ _ _ _ _ h⟩

/-- The visit with the PIN comes first, and the next visitor is shown the PIN. -/
theorem next_visitor_gets_the_pin :
    answer (run (step plainSite (withPin plainVisits 0 (some (bytes "4f0c2a")))) quiet
        (oneThen 0 1)) 1 =
      some ⟨200, pinCard plainSite (some (bytes "4f0c2a")) ++ bytes "first post"⟩ ∧
    ¬ OthersSeeNothing plainSite plainVisits 0 (some (bytes "4f0c2a")) none quiet
      (oneThen 0 1) := by
  have hwith : answer (run (step plainSite (withPin plainVisits 0 (some (bytes "4f0c2a")))) quiet
      (oneThen 0 1)) 1 =
      some ⟨200, pinCard plainSite (some (bytes "4f0c2a")) ++ bytes "first post"⟩ := by
    decide +kernel
  have hwithout : answer (run (step plainSite (withPin plainVisits 0 none)) quiet
      (oneThen 0 1)) 1 = some ⟨200, bytes "first post"⟩ := by
    decide +kernel
  refine ⟨hwith, ?_⟩
  intro hsame
  have heq := hsame 1 (by decide) rfl
  rw [hwith, hwithout] at heq
  exact absurd heq (by decide +kernel)

end FlyBoard.PostGet

import Mathlib.Data.List.Infix
import Mathlib.Logic.Function.Basic

/-!
The payment links of the server, kept in memory under the identifiers that clients choose.
Creating a link stores it without a look at what is stored, and a late claim marks a link as
expired before its status is checked; so a link that has been claimed can become pending or
expired again. These are the only ways: as long as links are created only where none is or a
claimable one, and claimed links are not claimed late, every identifier is claimed at most
once. Times are milliseconds; creating a link reads the clock twice.
-/
namespace PayyRollup.PaymentLinks

inductive PaymentLinkStatus
  | pending
  | claimed
  | expired
  | cancelled
  | failed
  deriving DecidableEq

namespace PaymentLinkStatus

/-- The name in messages. -/
def debug : PaymentLinkStatus → String
  | pending => "Pending"
  | claimed => "Claimed"
  | expired => "Expired"
  | cancelled => "Cancelled"
  | failed => "Failed"

/-- The name in queries. -/
def lowercase : PaymentLinkStatus → String
  | pending => "pending"
  | claimed => "claimed"
  | expired => "expired"
  | cancelled => "cancelled"
  | failed => "failed"

end PaymentLinkStatus

structure PaymentLink where
  paymentId : String
  amountCents : ℕ
  currency : String
  recipient : String
  recipientName : Option String
  note : Option String
  createdAt : ℕ
  expiresAt : ℕ
  signature : String
  status : PaymentLinkStatus
  claimedBy : Option String
  claimedAt : Option ℕ
  version : ℕ
  deriving DecidableEq

structure CreatePaymentLinkRequest where
  paymentId : String
  amountCents : ℕ
  currency : Option String
  recipient : String
  recipientName : Option String
  note : Option String
  expiresAt : ℕ
  signature : String
  version : Option ℕ

structure ValidatePaymentLinkRequest where
  amountCents : ℕ
  recipient : String
  expiresAt : ℕ

structure ClaimPaymentLinkRequest where
  claimerAddress : String

structure CancelPaymentLinkRequest where
  recipient : String

structure ListPaymentLinksQuery where
  address : Option String
  status : Option String
  type : Option String
  limit : Option ℕ
  offset : Option ℕ

inductive Body
  | create (success : Bool) (paymentId : String) (message : String)
  | link (link : PaymentLink)
  | validate (valid : Bool) (status : PaymentLinkStatus) (isExpired : Bool) (message : String)
  | claim (success : Bool) (amountCents : ℕ) (transactionId : Option String) (message : String)
  | cancel (success : Bool) (paymentId : Option String) (message : String)
  | links (links : List PaymentLink)
  | proof (success : Bool) (proof : Option String) (message : String)
  | notFound (error : String) (paymentId : String)

structure HttpResponse where
  code : ℕ
  body : Body

abbrev Links := String → Option PaymentLink

/-- The link that a request asks for. -/
def paymentLinkOf (req : CreatePaymentLinkRequest) (createdAt : ℕ) : PaymentLink where
  paymentId := req.paymentId
  amountCents := req.amountCents
  currency := req.currency.getD "USD"
  recipient := req.recipient
  recipientName := req.recipientName
  note := req.note
  createdAt := createdAt
  expiresAt := req.expiresAt
  signature := req.signature
  status := .pending
  claimedBy := none
  claimedAt := none
  version := req.version.getD 1

def createPaymentLink (links : Links) (now createdAt : ℕ) (req : CreatePaymentLinkRequest) :
    Links × HttpResponse :=
  if req.expiresAt ≤ now then
    (links, ⟨400, .create false req.paymentId "Payment link already expired"⟩)
  else
    (Function.update links req.paymentId (some (paymentLinkOf req createdAt)),
      ⟨201, .create true req.paymentId "Payment link created successfully"⟩)

def getPaymentLink (links : Links) (now : ℕ) (paymentId : String) : HttpResponse :=
  match links paymentId with
  | some link =>
    if link.status = .pending ∧ link.expiresAt < now then
      ⟨200, .link { link with status := .expired }⟩
    else ⟨200, .link link⟩
  | none => ⟨404, .notFound "Payment link not found" paymentId⟩

def validatePaymentLink (links : Links) (now : ℕ) (paymentId : String)
    (req : ValidatePaymentLinkRequest) : HttpResponse :=
  match links paymentId with
  | some link =>
    let isExpired := decide (link.expiresAt < now)
    if ¬(link.amountCents = req.amountCents ∧ link.recipient = req.recipient ∧
        link.expiresAt = req.expiresAt) then
      ⟨400, .validate false link.status isExpired "Payment link parameters do not match"⟩
    else if isExpired then ⟨200, .validate false .expired true "Payment link has expired"⟩
    else if link.status ≠ .pending then
      ⟨200, .validate false link.status isExpired ("Payment link is " ++ link.status.debug)⟩
    else ⟨200, .validate true .pending false "Payment link is valid"⟩
  | none => ⟨404, .validate false .failed false "Payment link not found"⟩

def claimPaymentLink (links : Links) (now : ℕ) (paymentId : String)
    (req : ClaimPaymentLinkRequest) : Links × HttpResponse :=
  match links paymentId with
  | some link =>
    if link.expiresAt < now then
      (Function.update links paymentId (some { link with status := .expired }),
        ⟨400, .claim false link.amountCents none "Payment link has expired"⟩)
    else if link.status ≠ .pending then
      (links, ⟨400, .claim false link.amountCents none
        ("Payment link is already " ++ link.status.debug)⟩)
    else
      (Function.update links paymentId (some
          { link with
            status := .claimed
            claimedBy := some req.claimerAddress
            claimedAt := some now }),
        ⟨200, .claim true link.amountCents (some ("tx_" ++ paymentId))
          "Payment claimed successfully"⟩)
  | none => (links, ⟨404, .claim false 0 none "Payment link not found"⟩)

def cancelPaymentLink (links : Links) (paymentId : String) (req : CancelPaymentLinkRequest) :
    Links × HttpResponse :=
  match links paymentId with
  | some link =>
    if link.recipient ≠ req.recipient then
      (links, ⟨403, .cancel false none "Only the creator can cancel this payment link"⟩)
    else if link.status = .claimed then
      (links, ⟨400, .cancel false none "Cannot cancel a claimed payment link"⟩)
    else
      (Function.update links paymentId (some { link with status := .cancelled }),
        ⟨200, .cancel true (some paymentId) "Payment link cancelled successfully"⟩)
  | none => (links, ⟨404, .cancel false none "Payment link not found"⟩)

/-- The filters of a query. -/
def listed (now : ℕ) (query : ListPaymentLinksQuery) (link : PaymentLink) : Bool :=
  let byAddress := query.address.all fun addr =>
    decide (link.recipient = addr ∨ link.claimedBy = some addr)
  let byStatus := query.status.all fun status =>
    if link.status = .pending ∧ link.expiresAt < now then decide ("expired" = status)
    else decide (link.status.lowercase = status)
  let byType := query.type.all fun linkType => query.address.all fun addr =>
    if linkType = "sent" then decide (link.recipient = addr)
    else if linkType = "received" then decide (link.claimedBy = some addr)
    else true
  byAddress && byStatus && byType

/-- The links come in the order in which the map is iterated. -/
def listPaymentLinks (values : List PaymentLink) (now : ℕ) (query : ListPaymentLinksQuery) :
    HttpResponse :=
  let result := (values.filter (listed now query)).mergeSort fun a b =>
    decide (b.createdAt ≤ a.createdAt)
  ⟨200, .links ((result.drop (query.offset.getD 0)).take (query.limit.getD 50))⟩

def generateClaimProof (links : Links) (now : ℕ) (paymentId : String) : HttpResponse :=
  match links paymentId with
  | some link =>
    if link.status ≠ .pending then
      ⟨400, .proof false none ("Cannot generate proof for " ++ link.status.debug ++
        " payment link")⟩
    else
      ⟨200, .proof true (some ("zkproof_" ++ paymentId ++ "_" ++ toString now))
        "Proof generated successfully"⟩
  | none => ⟨404, .proof false none "Payment link not found"⟩

inductive Request
  | create (req : CreatePaymentLinkRequest)
  | get (paymentId : String)
  | validate (paymentId : String) (req : ValidatePaymentLinkRequest)
  | claim (paymentId : String) (req : ClaimPaymentLinkRequest)
  | cancel (paymentId : String) (req : CancelPaymentLinkRequest)
  | list (query : ListPaymentLinksQuery)
  | generateClaimProof (paymentId : String)

/-- A request with the readings of the clock. -/
structure Event where
  now : ℕ
  again : ℕ
  request : Request

section Run

variable (values : Links → List PaymentLink)

def handle (links : Links) (e : Event) : Links × HttpResponse :=
  match e.request with
  | .create req => createPaymentLink links e.now e.again req
  | .get paymentId => (links, getPaymentLink links e.now paymentId)
  | .validate paymentId req => (links, validatePaymentLink links e.now paymentId req)
  | .claim paymentId req => claimPaymentLink links e.now paymentId req
  | .cancel paymentId req => cancelPaymentLink links paymentId req
  | .list query => (links, listPaymentLinks (values links) e.now query)
  | .generateClaimProof paymentId => (links, generateClaimProof links e.now paymentId)

def step (links : Links) (e : Event) : Links := (handle values links e).1

def run (events : List Event) : Links := events.foldl (step values) fun _ => none

/-- The request claims the link. -/
def Claims (links : Links) (e : Event) (paymentId : String) : Prop :=
  ∃ req amountCents transactionId message, e.request = .claim paymentId req ∧
    (handle values links e).2 = ⟨200, .claim true amountCents transactionId message⟩

end Run

/-- The link is cancelled or expired. -/
def Dead (now : ℕ) (link : PaymentLink) : Prop :=
  link.status = .cancelled ∨ link.status = .expired ∨
    link.status = .pending ∧ link.expiresAt < now

/-- Each identifier is claimed at most once, a claimed link stays as it is, and a cancelled or
expired link is not claimed. -/
structure AtMostOnce (values : Links → List PaymentLink) (events : List Event) : Prop where
  claimed_once : ∀ before e middle e' after, events = before ++ e :: (middle ++ e' :: after) →
    ∀ paymentId, Claims values (run values before) e paymentId →
      ¬Claims values (run values (before ++ e :: middle)) e' paymentId
  claimed_stays : ∀ before middle after, events = before ++ middle ++ after →
    ∀ paymentId link, run values before paymentId = some link → link.status = .claimed →
      ∃ link', run values (before ++ middle) paymentId = some link' ∧ link'.status = .claimed ∧
        link'.claimedBy = link.claimedBy
  dead_unclaimed : ∀ before first rest, events = before ++ first :: rest →
    ∀ paymentId link, run values before paymentId = some link → Dead first.now link →
      ∀ middle e after, first :: rest = middle ++ e :: after →
        ¬Claims values (run values (before ++ middle)) e paymentId

/-- A link is created only where no claimed, cancelled or expired one is, and a claimed link is
not claimed late. -/
def Sound (links : Links) (e : Event) : Prop :=
  match e.request with
  | .create req => req.expiresAt ≤ e.now ∨ ∀ link, links req.paymentId = some link →
      link.status ≠ .claimed ∧ ¬Dead e.now link
  | .claim paymentId _ => ∀ link, links paymentId = some link → link.status = .claimed →
      e.now ≤ link.expiresAt
  | _ => True

/-- All requests of a run after some events are sound. -/
def AllSound (values : Links → List PaymentLink) (before events : List Event) : Prop :=
  ∀ middle e after, events = middle ++ e :: after → Sound (run values (before ++ middle)) e

section Steps

variable (values : Links → List PaymentLink) (links : Links) (e : Event) (paymentId : String)

/-- What a request can do to a link. -/
inductive Change : Prop
  | kept (h : step values links e paymentId = links paymentId)
  | created (req : CreatePaymentLinkRequest) (hreq : e.request = .create req)
      (hid : req.paymentId = paymentId) (hnow : e.now < req.expiresAt)
      (h : step values links e paymentId = some (paymentLinkOf req e.again))
  | expired (req : ClaimPaymentLinkRequest) (link : PaymentLink)
      (hreq : e.request = .claim paymentId req) (hlink : links paymentId = some link)
      (hnow : link.expiresAt < e.now)
      (h : step values links e paymentId = some { link with status := .expired })
  | claimed (req : ClaimPaymentLinkRequest) (link : PaymentLink)
      (hreq : e.request = .claim paymentId req) (hlink : links paymentId = some link)
      (hnow : e.now ≤ link.expiresAt) (hstatus : link.status = .pending)
      (h : step values links e paymentId = some
        { link with
          status := .claimed
          claimedBy := some req.claimerAddress
          claimedAt := some e.now })
  | cancelled (link : PaymentLink) (hlink : links paymentId = some link)
      (hstatus : link.status ≠ .claimed)
      (h : step values links e paymentId = some { link with status := .cancelled })

theorem create_change (req : CreatePaymentLinkRequest) (hreq : e.request = .create req) :
    Change values links e paymentId := by
  have hstep : step values links e = (createPaymentLink links e.now e.again req).1 := by
    rw [step, handle, hreq]
  by_cases hnow : req.expiresAt ≤ e.now
  · apply Change.kept
    rw [hstep, createPaymentLink, if_pos hnow]
  · by_cases hid : paymentId = req.paymentId
    · subst hid
      refine Change.created req hreq rfl (by omega) ?_
      rw [hstep, createPaymentLink, if_neg hnow]
      exact Function.update_self _ _ _
    · apply Change.kept
      rw [hstep, createPaymentLink, if_neg hnow]
      exact Function.update_of_ne hid _ _

theorem claim_change (id : String) (req : ClaimPaymentLinkRequest)
    (hreq : e.request = .claim id req) : Change values links e paymentId := by
  have hstep : step values links e = (claimPaymentLink links e.now id req).1 := by
    rw [step, handle, hreq]
  by_cases hid : paymentId = id
  · subst hid
    cases hlink : links paymentId with
    | none =>
      apply Change.kept
      rw [hstep, claimPaymentLink, hlink]
      exact hlink
    | some link =>
      by_cases hnow : link.expiresAt < e.now
      · refine Change.expired req link hreq hlink hnow ?_
        simp [hstep, claimPaymentLink, hlink, hnow]
      · by_cases hstatus : link.status = .pending
        · refine Change.claimed req link hreq hlink (by omega) hstatus ?_
          simp [hstep, claimPaymentLink, hlink, hnow, hstatus]
        · apply Change.kept
          simp [hstep, claimPaymentLink, hlink, hnow, hstatus]
  · apply Change.kept
    rw [hstep, claimPaymentLink]
    cases links id with
    | none => rfl
    | some link =>
      dsimp only
      split
      · exact Function.update_of_ne hid _ _
      · split
        · rfl
        · exact Function.update_of_ne hid _ _

theorem cancel_change (id : String) (req : CancelPaymentLinkRequest)
    (hreq : e.request = .cancel id req) : Change values links e paymentId := by
  have hstep : step values links e = (cancelPaymentLink links id req).1 := by
    rw [step, handle, hreq]
  by_cases hid : paymentId = id
  · subst hid
    cases hlink : links paymentId with
    | none =>
      apply Change.kept
      rw [hstep, cancelPaymentLink, hlink]
      exact hlink
    | some link =>
      by_cases hkept : link.recipient ≠ req.recipient ∨ link.status = .claimed
      · apply Change.kept
        rcases hkept with hrecipient | hstatus
        · simp [hstep, cancelPaymentLink, hlink, hrecipient]
        · by_cases hrecipient : link.recipient = req.recipient <;>
            simp [hstep, cancelPaymentLink, hlink, hrecipient, hstatus]
      · rw [not_or, not_not] at hkept
        refine Change.cancelled link hlink hkept.2 ?_
        simp [hstep, cancelPaymentLink, hlink, hkept]
  · apply Change.kept
    rw [hstep, cancelPaymentLink]
    cases links id with
    | none => rfl
    | some link =>
      dsimp only
      split
      · rfl
      · split
        · rfl
        · exact Function.update_of_ne hid _ _

theorem step_change : Change values links e paymentId := by
  cases hreq : e.request with
  | create req => exact create_change values links e paymentId req hreq
  | claim id req => exact claim_change values links e paymentId id req hreq
  | cancel id req => exact cancel_change values links e paymentId id req hreq
  | get id => exact .kept (by rw [step, handle, hreq])
  | validate id req => exact .kept (by rw [step, handle, hreq])
  | list query => exact .kept (by rw [step, handle, hreq])
  | generateClaimProof id => exact .kept (by rw [step, handle, hreq])

end Steps

section Sound

variable (values : Links → List PaymentLink) {links : Links} {e : Event} {paymentId : String}
  {link : PaymentLink}

/-- A claim takes a pending link in time. -/
theorem claims_iff : Claims values links e paymentId ↔
    ∃ req link, e.request = .claim paymentId req ∧ links paymentId = some link ∧
      link.status = .pending ∧ e.now ≤ link.expiresAt := by
  constructor
  · rintro ⟨req, amountCents, transactionId, message, hreq, hresponse⟩
    rw [handle, hreq] at hresponse
    change (claimPaymentLink links e.now paymentId req).2 = _ at hresponse
    unfold claimPaymentLink at hresponse
    cases hlink : links paymentId with
    | none =>
      rw [hlink] at hresponse
      injection hresponse with hcode
      cases hcode
    | some link =>
      rw [hlink] at hresponse
      dsimp only at hresponse
      split at hresponse
      · injection hresponse with hcode
        cases hcode
      · rename_i hnow
        split at hresponse
        · injection hresponse with hcode
          cases hcode
        · rename_i hstatus
          exact ⟨req, link, hreq, rfl, not_not.mp hstatus, by omega⟩
  · rintro ⟨req, link, hreq, hlink, hstatus, hnow⟩
    refine ⟨req, link.amountCents, some ("tx_" ++ paymentId), "Payment claimed successfully",
      hreq, ?_⟩
    rw [handle, hreq]
    change (claimPaymentLink links e.now paymentId req).2 = _
    simp [claimPaymentLink, hlink, hstatus, Nat.not_lt.mpr hnow]

theorem Claims.step_claimed (h : Claims values links e paymentId) :
    ∃ link, step values links e paymentId = some link ∧ link.status = .claimed := by
  obtain ⟨req, link, hreq, hlink, hstatus, hnow⟩ := (claims_iff values).mp h
  refine ⟨{ link with
    status := .claimed
    claimedBy := some req.claimerAddress
    claimedAt := some e.now }, ?_, rfl⟩
  rw [step, handle, hreq]
  simp [claimPaymentLink, hlink, hstatus, Nat.not_lt.mpr hnow]

theorem Sound.claimed_kept (h : Sound links e) (hlink : links paymentId = some link)
    (hstatus : link.status = .claimed) : step values links e paymentId = some link := by
  rcases step_change values links e paymentId with hkept | ⟨req, hreq, hid, hnow, -⟩ |
    ⟨req, link', hreq, hlink', hnow, -⟩ | ⟨req, link', -, hlink', -, hpending, -⟩ |
    ⟨link', hlink', hnot, -⟩
  · rw [hkept, hlink]
  · rw [Sound, hreq] at h
    rcases h with hexpired | hfree
    · omega
    · rw [hid] at hfree
      exact absurd hstatus (hfree link hlink).1
  · obtain rfl := Option.some.inj (hlink.symm.trans hlink')
    rw [Sound, hreq] at h
    have hle := h link hlink hstatus
    omega
  · obtain rfl := Option.some.inj (hlink.symm.trans hlink')
    rw [hstatus] at hpending
    cases hpending
  · obtain rfl := Option.some.inj (hlink.symm.trans hlink')
    exact absurd hstatus hnot

theorem Dead.mono {now now' : ℕ} (h : Dead now link) (hle : now ≤ now') : Dead now' link := by
  rcases h with hcancelled | hexpired | ⟨hpending, hlt⟩
  · exact Or.inl hcancelled
  · exact Or.inr (Or.inl hexpired)
  · exact Or.inr (Or.inr ⟨hpending, by omega⟩)

theorem Dead.not_claims (h : Dead e.now link) (hlink : links paymentId = some link) :
    ¬Claims values links e paymentId := by
  intro hclaims
  obtain ⟨req, link', -, hlink', hpending, hnow⟩ := (claims_iff values).mp hclaims
  obtain rfl := Option.some.inj (hlink.symm.trans hlink')
  rcases h with hcancelled | hexpired | ⟨-, hlt⟩
  · rw [hpending] at hcancelled
    cases hcancelled
  · rw [hpending] at hexpired
    cases hexpired
  · omega

theorem Sound.dead_kept (h : Sound links e) (hlink : links paymentId = some link)
    (hdead : Dead e.now link) :
    ∃ link', step values links e paymentId = some link' ∧ Dead e.now link' := by
  rcases step_change values links e paymentId with hkept | ⟨req, hreq, hid, hnow, -⟩ |
    ⟨-, link', -, -, -, hstep⟩ | ⟨req, link', hreq, hlink', hnow, hpending, -⟩ |
    ⟨link', -, -, hstep⟩
  · exact ⟨link, by rw [hkept, hlink], hdead⟩
  · rw [Sound, hreq] at h
    rcases h with hexpired | hfree
    · omega
    · rw [hid] at hfree
      exact absurd hdead (hfree link hlink).2
  · exact ⟨_, hstep, Or.inr (Or.inl rfl)⟩
  · exact absurd ((claims_iff values).mpr ⟨req, link', hreq, hlink', hpending, hnow⟩)
      (hdead.not_claims values hlink)
  · exact ⟨_, hstep, Or.inl rfl⟩

end Sound

section Runs

variable (values : Links → List PaymentLink) {events : List Event}

theorem run_append (before events : List Event) :
    run values (before ++ events) = events.foldl (step values) (run values before) :=
  List.foldl_append

theorem run_concat (before : List Event) (e : Event) :
    run values (before ++ [e]) = step values (run values before) e :=
  List.foldl_concat _ _ _ _

variable {values}

theorem AllSound.of_append {before first rest : List Event}
    (h : AllSound values before (first ++ rest)) :
    AllSound values before first ∧ AllSound values (before ++ first) rest := by
  constructor
  · rintro middle e after rfl
    exact h middle e (after ++ rest) (by simp)
  · rintro middle e after rfl
    rw [List.append_assoc]
    exact h (first ++ middle) e after (by simp)

theorem AllSound.append {before first rest : List Event} (h : AllSound values before first)
    (h' : AllSound values (before ++ first) rest) : AllSound values before (first ++ rest) := by
  intro middle e after heq
  rcases List.append_eq_append_iff.mp heq with ⟨more, rfl, hrest⟩ | ⟨more, hfirst, hafter⟩
  · have hsound := h' more e after hrest
    rwa [List.append_assoc] at hsound
  · cases more with
    | nil =>
      rw [List.append_nil] at hfirst
      subst hfirst
      have hsound := h' [] e after (by simpa using hafter.symm)
      rwa [List.append_nil] at hsound
    | cons e' more =>
      obtain ⟨rfl, rfl⟩ := List.cons.inj hafter
      exact h middle e more hfirst

/-- A claimed link stays as it is. -/
theorem AllSound.claimed_kept (before middle : List Event) (h : AllSound values before middle)
    (paymentId : String) (link : PaymentLink) (hlink : run values before paymentId = some link)
    (hstatus : link.status = .claimed) :
    run values (before ++ middle) paymentId = some link := by
  induction middle using List.reverseRecOn with
  | nil => rwa [List.append_nil]
  | append_singleton middle e ih =>
    obtain ⟨hmiddle, hlast⟩ := h.of_append
    have hsound : Sound (run values (before ++ middle)) e := by
      have hnil := hlast [] e [] rfl
      rwa [List.append_nil] at hnil
    rw [← List.append_assoc, run_concat]
    exact hsound.claimed_kept values (ih hmiddle) hstatus

/-- A dead link stays dead. -/
theorem AllSound.dead_kept (before middle : List Event) (h : AllSound values before middle)
    (paymentId : String) (link : PaymentLink) (now : ℕ)
    (hlink : run values before paymentId = some link) (hdead : Dead now link)
    (htimes : ∀ e ∈ middle, now ≤ e.now) (hsorted : middle.Pairwise fun e e' => e.now ≤ e'.now) :
    ∃ link', run values (before ++ middle) paymentId = some link' ∧
      ∀ later, now ≤ later → (∀ e ∈ middle, e.now ≤ later) → Dead later link' := by
  induction middle using List.reverseRecOn with
  | nil =>
    refine ⟨link, by rwa [List.append_nil], fun later hlater _ => hdead.mono hlater⟩
  | append_singleton middle e ih =>
    obtain ⟨hmiddle, hlast⟩ := h.of_append
    have hsound : Sound (run values (before ++ middle)) e := by
      have hnil := hlast [] e [] rfl
      rwa [List.append_nil] at hnil
    rw [List.pairwise_append] at hsorted
    obtain ⟨link', hlink', hdead'⟩ := ih hmiddle
      (fun e' he' => htimes e' (List.mem_append_left _ he')) hsorted.1
    have hnow := hdead' e.now (htimes e (by simp)) fun e' he' => hsorted.2.2 e' he' e (by simp)
    obtain ⟨link'', hlink'', hdead''⟩ := hsound.dead_kept values hlink' hnow
    rw [← List.append_assoc, run_concat]
    exact ⟨link'', hlink'', fun later _ hall => hdead''.mono (hall e (by simp))⟩

/-- A run of sound requests. -/
theorem AllSound.atMostOnce (h : AllSound values [] events)
    (htimes : events.Pairwise fun e e' => e.now ≤ e'.now) : AtMostOnce values events := by
  have hlater : ∀ before middle after, events = before ++ (middle ++ after) →
      AllSound values before middle := by
    rintro before middle after rfl
    have hmiddle := h.of_append.2.of_append.1
    rwa [List.nil_append] at hmiddle
  refine ⟨?_, ?_, ?_⟩
  · rintro before e middle e' after heq paymentId hclaims hagain
    obtain ⟨link, hlink, hstatus⟩ := hclaims.step_claimed
    rw [← run_concat] at hlink
    have hkept := AllSound.claimed_kept (before ++ [e]) middle
      (hlater (before ++ [e]) middle (e' :: after) (by rw [heq]; simp)) paymentId link hlink hstatus
    obtain ⟨-, link', -, hlink', hpending, -⟩ := (claims_iff values).mp hagain
    rw [List.append_assoc, List.singleton_append, hlink', Option.some_inj] at hkept
    rw [← hkept, hpending] at hstatus
    cases hstatus
  · intro before middle after heq paymentId link hlink hstatus
    have hkept := AllSound.claimed_kept before middle
      (hlater before middle after (by rw [heq, List.append_assoc])) paymentId link hlink hstatus
    exact ⟨link, hkept, hstatus, rfl⟩
  · intro before first rest heq paymentId link hlink hdead middle e after hsplit
    rw [heq, List.pairwise_append] at htimes
    have hsorted := htimes.2.1
    have hfirst : ∀ e' ∈ first :: rest, first.now ≤ e'.now := by
      intro e' he'
      rcases List.mem_cons.mp he' with rfl | he'
      · exact le_refl _
      · exact (List.pairwise_cons.mp hsorted).1 e' he'
    rw [hsplit] at hfirst hsorted
    rw [List.pairwise_append] at hsorted
    obtain ⟨link', hlink', hdead'⟩ := AllSound.dead_kept before middle
      (hlater before middle (e :: after) (by rw [heq, hsplit])) paymentId link first.now hlink
      hdead (fun e' he' => hfirst e' (List.mem_append_left _ he')) hsorted.1
    exact (hdead' e.now (hfirst e (by simp)) fun e' he' =>
      hsorted.2.2 e' he' e (by simp)).not_claims values hlink'

/-- After an unsound request the links can already be wrong, or one claim makes them so. -/
theorem exists_sound_claim (before : List Event) (e : Event)
    (h : ¬Sound (run values before) e) : ¬AtMostOnce values (before ++ [e]) ∨
      ∃ e', e'.now = e.now ∧ Sound (run values (before ++ [e])) e' ∧
        ¬AtMostOnce values (before ++ [e] ++ [e']) := by
  have hbroken : ∀ paymentId link, run values before paymentId = some link →
      link.status = .claimed → (∀ link', run values (before ++ [e]) paymentId = some link' →
        link'.status ≠ .claimed) → ¬AtMostOnce values (before ++ [e]) := by
    intro paymentId link hlink hstatus hchanged hclaim
    obtain ⟨link', hlink', hclaimed, -⟩ :=
      hclaim.claimed_stays before [e] [] (by simp) paymentId link hlink hstatus
    exact hchanged link' hlink' hclaimed
  cases hreq : e.request with
  | create req =>
    rw [Sound, hreq] at h
    simp only [not_or, not_le, not_forall] at h
    obtain ⟨hnow, link, hlink, hbad⟩ := h
    have hcreated : run values (before ++ [e]) req.paymentId =
        some (paymentLinkOf req e.again) := by
      rw [run_concat, step, handle, hreq]
      change (createPaymentLink _ e.now e.again req).1 req.paymentId = _
      rw [createPaymentLink, if_neg (by omega)]
      exact Function.update_self _ _ _
    by_cases hstatus : link.status = .claimed
    · left
      refine hbroken req.paymentId link hlink hstatus ?_
      intro link' hlink'
      obtain rfl := Option.some.inj (hcreated.symm.trans hlink')
      intro hclaimed
      cases hclaimed
    · right
      have hdead : Dead e.now link := by
        by_contra hdead
        exact hbad ⟨hstatus, hdead⟩
      refine ⟨⟨e.now, 0, .claim req.paymentId ⟨""⟩⟩, rfl, ?_, fun hclaim => ?_⟩
      · intro link' hlink' hclaimed
        obtain rfl := Option.some.inj (hcreated.symm.trans hlink')
        cases hclaimed
      · refine hclaim.dead_unclaimed before e _ (by simp; rfl) req.paymentId link hlink hdead
          [e] _ [] rfl ?_
        exact (claims_iff values).mpr ⟨⟨""⟩, _, rfl, hcreated, rfl, hnow.le⟩
  | claim paymentId req =>
    left
    rw [Sound, hreq] at h
    simp only [not_forall, not_le] at h
    obtain ⟨link, hlink, hstatus, hnow⟩ := h
    refine hbroken paymentId link hlink hstatus ?_
    intro link' hlink'
    rw [run_concat, step, handle, hreq] at hlink'
    change (claimPaymentLink _ e.now paymentId req).1 paymentId = _ at hlink'
    rw [claimPaymentLink, hlink] at hlink'
    dsimp only at hlink'
    rw [if_pos hnow] at hlink'
    change Function.update _ _ _ _ = _ at hlink'
    rw [Function.update_self, Option.some_inj] at hlink'
    subst hlink'
    intro hclaimed
    cases hclaimed
  | get paymentId => exact absurd (by rw [Sound, hreq]; trivial) h
  | validate paymentId req => exact absurd (by rw [Sound, hreq]; trivial) h
  | cancel paymentId req => exact absurd (by rw [Sound, hreq]; trivial) h
  | list query => exact absurd (by rw [Sound, hreq]; trivial) h
  | generateClaimProof paymentId => exact absurd (by rw [Sound, hreq]; trivial) h

/-- Up to every point of a run, whatever sound requests may follow, each identifier is claimed
at most once exactly if all requests of the run are sound. -/
theorem atMostOnce_iff (values : Links → List PaymentLink) (events : List Event)
    (htimes : events.Pairwise fun e e' => e.now ≤ e'.now) :
    (∀ before more, before <+: events →
      ((before ++ more).Pairwise fun e e' => e.now ≤ e'.now) →
        AllSound values before more → AtMostOnce values (before ++ more)) ↔
      AllSound values [] events := by
  constructor
  · intro hall middle e after heq
    by_contra hunsound
    rw [List.nil_append] at hunsound
    have hprefix : middle ++ [e] <+: events := ⟨after, by rw [heq]; simp⟩
    have hsorted : (middle ++ [e]).Pairwise fun e e' => e.now ≤ e'.now :=
      htimes.sublist hprefix.sublist
    rcases exists_sound_claim middle e hunsound with hnow | ⟨e', htime, hsound, hlater⟩
    · apply hnow
      have hclaim := hall (middle ++ [e]) [] hprefix (by simpa using hsorted) (by
        intro before e' after hnil
        simp at hnil)
      rwa [List.append_nil] at hclaim
    · apply hlater
      apply hall (middle ++ [e]) [e'] hprefix
      · rw [List.pairwise_append]
        refine ⟨hsorted, List.pairwise_singleton _ _, ?_⟩
        intro d hd d' hd'
        obtain rfl := List.mem_singleton.mp hd'
        rw [htime]
        rcases List.mem_append.mp hd with hd | hd
        · exact (List.pairwise_append.mp hsorted).2.2 d hd e (by simp)
        · rw [List.mem_singleton.mp hd]
      · intro before d after hsingle
        cases before with
        | nil =>
          obtain ⟨rfl, -⟩ := List.cons.inj hsingle
          rwa [List.append_nil]
        | cons d' before => simp at hsingle
  · rintro hsound before more ⟨after, rfl⟩ hsorted hmore
    have hbefore := hsound.of_append.1
    exact (hbefore.append hmore).atMostOnce hsorted

end Runs

section Examples

def linkRequest (expiresAt : ℕ) : CreatePaymentLinkRequest :=
  ⟨"a", 100, none, "alice", none, none, expiresAt, "", none⟩

/-- A link is claimed once; a second claim in time leaves it with the first. -/
theorem atMostOnce_second_claim :
    let events : List Event := [⟨0, 0, .create (linkRequest 5)⟩, ⟨1, 1, .claim "a" ⟨"bob"⟩⟩,
      ⟨2, 2, .claim "a" ⟨"carol"⟩⟩]
    AtMostOnce (fun _ => []) events ∧
      (run (fun _ => []) events "a").map PaymentLink.claimedBy = some (some "bob") := by
  intro events
  have hsorted : events.Pairwise fun e e' => e.now ≤ e'.now := by simp [events]
  have hsound : AllSound (fun _ => []) [] events := by
    intro middle e after heq
    rcases middle with _ | ⟨first, _ | ⟨second, _ | ⟨third, rest⟩⟩⟩
    · obtain ⟨rfl, -⟩ := List.cons.inj heq
      exact Or.inr fun link hlink => nomatch hlink
    · obtain ⟨rfl, htail⟩ := List.cons.inj heq
      obtain ⟨rfl, -⟩ := List.cons.inj htail
      intro link hlink hclaimed
      obtain rfl := Option.some.inj hlink
      cases hclaimed
    · obtain ⟨rfl, htail⟩ := List.cons.inj heq
      obtain ⟨rfl, hrest⟩ := List.cons.inj htail
      obtain ⟨rfl, -⟩ := List.cons.inj hrest
      intro link hlink _
      obtain rfl := Option.some.inj hlink
      decide
    · have hlength := congrArg List.length heq
      simp [events] at hlength
  refine ⟨?_, rfl⟩
  have hprefix : events <+: events := List.prefix_rfl
  have hclaims := (atMostOnce_iff (fun _ => []) events hsorted).mpr hsound events [] hprefix
    (by rwa [List.append_nil]) (fun middle e after hnil => by simp at hnil)
  rwa [List.append_nil] at hclaims

/-- A link is claimed, created again under its identifier, and claimed by someone else. -/
theorem not_atMostOnce :
    ¬∀ (values : Links → List PaymentLink) (events : List Event),
      (events.Pairwise fun e e' => e.now ≤ e'.now) → AtMostOnce values events := by
  intro hclaim
  have honce := hclaim (fun _ => [])
    [⟨0, 0, .create (linkRequest 5)⟩, ⟨1, 1, .claim "a" ⟨"bob"⟩⟩,
      ⟨2, 2, .create (linkRequest 6)⟩, ⟨3, 3, .claim "a" ⟨"carol"⟩⟩] (by simp)
  refine honce.claimed_once [⟨0, 0, .create (linkRequest 5)⟩] _
    [⟨2, 2, .create (linkRequest 6)⟩] _ [] rfl "a" ?_ ?_
  · exact ⟨⟨"bob"⟩, 100, some "tx_a", _, rfl, rfl⟩
  · exact ⟨⟨"carol"⟩, 100, some "tx_a", _, rfl, rfl⟩

/-- A late claim makes a claimed link expired. -/
example : (run (fun _ => []) [⟨0, 0, .create (linkRequest 5)⟩, ⟨1, 1, .claim "a" ⟨"bob"⟩⟩,
    ⟨6, 6, .claim "a" ⟨"carol"⟩⟩] "a").map PaymentLink.status = some .expired := rfl

end Examples
end PayyRollup.PaymentLinks

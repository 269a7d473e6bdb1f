import EntityCache.Proofs.FilterVisits
import EntityCache.Proofs.PathWalks
import Mathlib.Data.List.Forall2

/-! What a quantifier ranges over. On an entity type its path has to count as a collection, and
its body is rendered on the type that the last navigation of the path leads to. The flag that
is asked outlives that navigation, so a data property may still stand behind it. -/
namespace EntityCache.OData

/-- The text of a quantifier has a body in it that was rendered on the type `v`. -/
def BodyOn (s : Scope) (body : Predicate) (v : EntityType) (text : String) : Prop :=
  ∃ front inner, predicate (s.enter (.entity v)) body = .ok inner ∧
    text = front ++ "(" ++ s.nextVariable ++ ": " ++ inner ++ ")"

/-- A quantifier that has been rendered on an entity type: its path ends in a navigation to
many, or in one with a data property of its elements behind it. -/
theorem quantified_ranges {s : Scope} {t : EntityType} {op : Quantifier} {path : String}
    {body : Predicate} {text : String} (hstart : s.start = .entity t)
    (h : predicate s (.quantified op path body) = .ok text) :
    ∃ navigations v, s.catalog.EndsInCollection t navigations v ∧ BodyOn s body v text ∧
      (Catalog.pathSegments path = navigations ∨
        ∃ last p, Catalog.pathSegments path = navigations ++ [last] ∧
          v.dataProperty? last = some p) := by
  obtain ⟨resolved, inner, hover, hinner, htext⟩ := quantified_ok h
  obtain ⟨hresolved, hmany⟩ := collection_ok hover
  rw [hstart] at hresolved hmany
  obtain ⟨navigations, v, hends, htarget, hsegments⟩ :=
    Catalog.resolvePath_collection hresolved (hmany rfl)
  rw [htarget] at hinner
  exact ⟨navigations, v, hends, ⟨_, inner, hinner, htext⟩, hsegments⟩

/-- In every scope, and so at every depth. A quantifier on an entity type ranges over a
collection whose elements its body is about, unless its path ends in a data property. Then it
does so without that property. -/
theorem quantified_ranges_iff {s : Scope} {t : EntityType} {op : Quantifier} {path : String}
    {body : Predicate} {text : String} (hstart : s.start = .entity t)
    (h : predicate s (.quantified op path body) = .ok text) :
    ((∃ v, s.catalog.EndsInCollection t (Catalog.pathSegments path) v ∧ BodyOn s body v text) ↔
      ∀ p, ¬ s.catalog.EndsInData t (Catalog.pathSegments path) p) ∧
    ∀ p, s.catalog.EndsInData t (Catalog.pathSegments path) p →
      ∃ before last v, Catalog.pathSegments path = before ++ [last] ∧
        s.catalog.EndsInCollection t before v ∧ v.dataProperty? last = some p ∧
        BodyOn s body v text := by
  obtain ⟨navigations, v, hends, hbody, hsegments⟩ := quantified_ranges hstart h
  obtain ⟨n, hlast, _⟩ := id hends
  constructor
  · constructor
    · rintro ⟨u, ⟨m, hm, _⟩, _⟩
      exact hm.not_data
    · intro hnone
      rcases hsegments with hsame | ⟨last, p, hpath, hp⟩
      · exact ⟨v, hsame ▸ hends, hbody⟩
      · exact absurd ⟨navigations, last, v, hpath, hlast.leads, hp⟩ (hnone p)
  · intro p hdata
    rcases hsegments with hsame | ⟨last, q, hpath, hq⟩
    · rw [hsame] at hdata
      exact absurd hdata (hlast.not_data p)
    · obtain ⟨before, last', u, hpath', hleads, hp⟩ := hdata
      obtain ⟨rfl, hsame⟩ := List.append_inj' (hpath.symm.trans hpath') rfl
      cases hsame
      cases hlast.leads.unique hleads
      exact ⟨navigations, last, v, hpath, hends, hp, hbody⟩

def customerType : EntityType where
  name := "Customer"
  dataProperties := [{ name := "id", dataType := .int32, isKey := true }]
  navigationProperties := [{ name := "orders", target := "Order", isScalar := false }]

def orderType : EntityType where
  name := "Order"
  dataProperties := [{ name := "id", dataType := .int32, isKey := true },
    { name := "freight", dataType := .decimal }]
  navigationProperties := [{ name := "customer", target := "Customer" }]

def orderCatalog : Catalog := { types := [customerType, orderType] }

def dearlyShipped : Predicate :=
  .binary .greaterThan (.property "freight") (.literal (.integer 1) none)

/-- In the body of a quantifier over orders: the other orders of the customer of each. -/
theorem orders_of_customer_ranged :
    let s := (Scope.outermost orderCatalog (.entity customerType)).enter (.entity orderType)
    s.start = .entity orderType ∧
      predicate s (.quantified .any "customer.orders" dearlyShipped) =
        .ok "x1/customer/orders/any(x2: x2/freight gt 1m)" ∧
      ∃ v, orderCatalog.EndsInCollection orderType (Catalog.pathSegments "customer.orders") v ∧
        BodyOn s dearlyShipped v "x1/customer/orders/any(x2: x2/freight gt 1m)" := by
  intro s
  have htext : predicate s (.quantified .any "customer.orders" dearlyShipped) =
      .ok "x1/customer/orders/any(x2: x2/freight gt 1m)" := by decide +kernel
  have hends : orderCatalog.EndsInNavigation orderType (Catalog.pathSegments "customer.orders")
      { name := "orders", target := "Order", isScalar := false } orderType :=
    .cons (u := customerType) rfl rfl rfl (.single rfl rfl rfl)
  exact ⟨rfl, htext, (quantified_ranges_iff rfl htext).1.mpr hends.not_data⟩

/-- A quantifier over the freights of orders is rendered, though freights are no collection. -/
theorem freights_quantified : ¬ ∀ (s : Scope) (t : EntityType) (op : Quantifier) (path : String)
    (body : Predicate) (text : String), s.start = .entity t → t ∈ s.catalog.types →
      predicate s (.quantified op path body) = .ok text →
      ∃ v, s.catalog.EndsInCollection t (Catalog.pathSegments path) v ∧ BodyOn s body v text := by
  intro hall
  have htext : predicate (Scope.outermost orderCatalog (.entity customerType))
      (.quantified .any "orders.freight" dearlyShipped) =
        .ok "orders/freight/any(x1: x1/freight gt 1m)" := by decide +kernel
  have hdata : orderCatalog.EndsInData customerType (Catalog.pathSegments "orders.freight")
      { name := "freight", dataType := .decimal } :=
    ⟨["orders"], "freight", orderType, rfl, .cons rfl rfl rfl (.nil _), rfl⟩
  obtain ⟨v, ⟨p, hends, _⟩, _⟩ := hall _ customerType _ _ _ _ rfl List.mem_cons_self htext
  exact hends.not_data _ hdata

end EntityCache.OData

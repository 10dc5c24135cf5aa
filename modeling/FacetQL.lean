import FacetQL.Api.CreateIfAbsent
import FacetQL.Api.EdgeAuthorization
import FacetQL.Api.Leases
import FacetQL.Api.Requests
import FacetQL.Metrics
import FacetQL.Storage.Archives
import FacetQL.Storage.BTree.Creation
import FacetQL.Storage.BTree.Allocation
import FacetQL.Storage.BTree.FailedCommit
import FacetQL.Storage.ChangePages
import FacetQL.Storage.Cursors
import FacetQL.Storage.EdgeTrees
import FacetQL.Storage.FailedRotation
import FacetQL.Storage.GroupCommit
import FacetQL.Storage.History
import FacetQL.Storage.Integrity
import FacetQL.Storage.KeyOrder
import FacetQL.Storage.Sequential
import FacetQL.Storage.TornPage
import FacetQL.Storage.UserLog

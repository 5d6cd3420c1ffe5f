import Orchestrator.Erofs.ZTrees
import Orchestrator.Sidecar.Order
import Orchestrator.Sidecar.Print
import Orchestrator.Job.Docker.WatchOrder
import Orchestrator.Job.Docker.WatchWorker
import Orchestrator.Job.Docker.RunCleanup
import Orchestrator.Job.Docker.RunStop
import Orchestrator.Job.Docker.Restart
import Orchestrator.Job.Docker.Logs
import Orchestrator.Job.Kubernetes.Terms
import Orchestrator.Job.Kubernetes.Status
import Orchestrator.Dispatcher.Close
import Orchestrator.Mount.Mountinfo
import Orchestrator.Mountagent.Registry
import Orchestrator.Proxy.Slots
import Orchestrator.Deployment.Kubernetes.Retire
import Orchestrator.Warm.Claim
import Orchestrator.Job.Kubernetes.Mapper
import Orchestrator.Artifact.ApplyTar
import Orchestrator.Erofs.ZBlockCount
import Orchestrator.Erofs.ZCache
import Orchestrator.Sandbox.Kubernetes
import Orchestrator.Pool.Shape
import Orchestrator.Proxy.Pool
import Orchestrator.Sidecar.Baseline
import Orchestrator.Warm.Idle
import Orchestrator.Artifact.Schedule
import Orchestrator.Artifact.HardLink
import Orchestrator.Circuitbreaker.Breaker
import Orchestrator.Claim.Flow
import Orchestrator.Dispatcher.Delivery
import Orchestrator.Deployment.Kubernetes.RevisionNames
import Orchestrator.Deployment.Kubernetes.Traffic
import Orchestrator.Deployment.Kubernetes.MarkerUpdates
import Orchestrator.Deployment.Kubernetes.RevisionStatus
